/-
  Loops.

  A loop runs the nodes below it several times.  While it runs, a `Loop` knows how often it has started
  and what ends it.  There are three strategies:

    * a *counted* loop runs up to a maximum; if it fetches, each run but the first reads a record of the
      document that the loop stands in, and there is no further run when no record is left.  The record
      that was current before the loop is current again after it;
    * a loop over *documents* moves on the list of secondary documents, one document for each run;
    * a loop over *records* reads the records of the current secondary document.

  A loop that does not fetch relies on the nodes below it to move on, and fails if they have not.

  `Loop.next` decides whether there is one more run, and names the position where the walk goes on:
  the first node below the loop, or, behind the last run, the node behind the loop.

  A loop that *unrolls* makes a copy of itself for each run but the first, and puts it behind the one
  before.  The copies of an earlier visit are dropped when the loop is entered again.
-/
import Stencil.Action
import Stencil.Combined
import Stencil.Query.Eval
import Stencil.Text.Integer
import Stencil.Tree.Element

set_option autoImplicit false

namespace Stencil

open Stencil.Text (boundedInt trim)

/-- Where a walk goes on: at a node, whose parents' names make a key. -/
structure Position where
  /-- The key of what contains the node. -/
  key : String
  /-- The node. -/
  node : NodeId
  deriving DecidableEq, Repr

/-- What ends a loop. -/
inductive Strategy where
  /-- The number of runs.  `stacked`: the record from before the loop has been saved. -/
  | counted (stacked : Bool)
  /-- The list of secondary documents.  `previous`: where its cursor stood at the last run. -/
  | documents (previous : Option Nat)
  /-- The records of a secondary document.  `previous`: the record of the last run. -/
  | records (previous : Option Int)
  deriving DecidableEq, Repr

instance : Inhabited Strategy := ⟨.counted false⟩

/-- Whether a strategy is the counted one. -/
def Strategy.isCounted : Strategy → Bool
  | .counted _ => true
  | _ => false

/-- A loop that runs. -/
structure Loop where
  /-- What ends it. -/
  strategy : Strategy
  /-- The number of runs that have started. -/
  count : Nat
  /-- The greatest number of runs. -/
  max : Option Nat
  /-- Whether the loop itself moves on. -/
  fetch : Bool
  /-- Whether each run has nodes of its own. -/
  unrolling : Bool
  /-- The key of what contains the loop. -/
  key : String
  /-- The key of the nodes below the loop. -/
  bodyKey : String
  /-- The node of the current run. -/
  anchor : NodeId
  deriving DecidableEq, Repr, Inhabited

/-- What a loop moves on. -/
inductive Feed where
  /-- The records of the document that the loop stands in. -/
  | records (table : Option Table)
  /-- The secondary documents. -/
  | documents (combined : Combined)
  deriving Repr, Inhabited

namespace Loop

/-! ## Entering -/

/-- Whether a text is another one, the case of ASCII letters apart. -/
def sameWord (a b : String) : Bool := a.toList.map Char.toLower == b.toList.map Char.toLower

/-- A declared attribute that is true or false. -/
def flag? (t : Tree) (node : NodeId) (name : String) : Except Error (Option Bool) :=
  match t.attr? node name with
  | none => .ok none
  | some text =>
    let word := trim text
    if sameWord word "true" then .ok (some true)
    else if sameWord word "false" then .ok (some false)
    else .error (.atSite (.badFlag name word) (t.describe node))

/-- The strategy that a `type` attribute names. -/
def strategyOf (t : Tree) (anchor : NodeId) (combined : Combined) : Except Error Strategy :=
  match t.attr? anchor "type" with
  | none | some "" => .ok (.counted false)
  | some "combined-xml" => .ok (.documents combined.cursor)
  | some "combined-record" => .ok (.records none)
  | some other => .error (.atSite (.unknownRepeatType other) (t.describe anchor))

/-- Reads a maximum. -/
def readMax (t : Tree) (anchor : NodeId) (text : String) : Except Error Nat :=
  match boundedInt .int64 (trim text) with
  | .error _ => .error (.atSite (.badRepeatMax text) (t.describe anchor))
  | .ok n => if n < 0 then .error (.atSite .negativeRepeatMax (t.describe anchor)) else .ok n.toNat

/-- The declared maximum. -/
def max? (t : Tree) (anchor : NodeId) : Except Error (Option Nat) := do
  match t.attr? anchor "max", t.attr? anchor "xmax" with
  | some text, _ => return some (← readMax t anchor text)
  | none, some source =>
    return some (← readMax t anchor (← Query.evaluate t (.element anchor) source))
  | none, none => return none

/-- The loop that a node declares, before its first run. -/
def declared (t : Tree) (anchor : NodeId) (key : String) (combined : Combined) :
    Except Error Loop := do
  let strategy ← strategyOf t anchor combined
  let fetch := (← flag? t anchor "fetch").getD !strategy.isCounted
  let unrolling := (← flag? t anchor "unrolling").getD false
  let max ← max? t anchor
  if strategy.isCounted && !fetch && max.isNone then
    throw (.atSite .unboundedRepeat (t.describe anchor))
  return ⟨strategy, 0, max, fetch, unrolling, key, t.keyPath key anchor, anchor⟩

/-- The copies of a loop that stand behind it. -/
def copies (t : Tree) (anchor : NodeId) : List NodeId :=
  match (t.computed anchor).repeatId with
  | none => []
  | some id =>
    (t.followingSiblings anchor).takeWhile fun n =>
      t.name n == "repeat" && (t.computed n).repeatId == some id

/-- Drops the copies of a loop. -/
def dropCopies (t : Tree) (anchor : NodeId) : Tree := (copies t anchor).foldl Tree.release t

/-- Enters the loop of a node. -/
def enter (anchor : NodeId) (key : String) (combined : Combined) : Action Tree Loop := do
  let loop ← Action.ofExcept (declared (← get) anchor key combined)
  modify fun t => (dropCopies t anchor).setSeq anchor 0
  return loop

/-! ## Running -/

/-- Whether the loop moves on the secondary documents. -/
def feedsOnDocuments (l : Loop) : Bool := !l.strategy.isCounted

/-- A loop at work. -/
structure Turn where
  /-- The loop. -/
  loop : Loop
  /-- The documents of the run. -/
  tree : Tree
  /-- What the loop moves on. -/
  feed : Feed
  /-- Where the walk goes on, the next position first. -/
  scan : List Position
  deriving Inhabited

namespace Turn

/-- Changes the loop. -/
def setLoop (f : Loop → Loop) : Action Turn Unit := modify fun s => { s with loop := f s.loop }

/-- Adds the next position. -/
def goOn (p : Position) : Action Turn Unit := modify fun s => { s with scan := p :: s.scan }

/-- Saves the current record before the second run of a counted loop that fetches. -/
def save : Action Turn Unit := do
  modify fun s =>
    { s with
      loop := { s.loop with strategy := .counted true }
      feed := match s.feed with
        | .records (some t) => .records (some t.push)
        | f => f }

/-- Reads a record of the document that the loop stands in. -/
def readRecord : Action Turn Bool := do
  match (← get).feed with
  | .records (some t) =>
    modify fun s => { s with feed := .records (some t.read.2) }
    return t.read.1
  | _ => return false

/-- Reads a record of the current secondary document; says nothing if there is no table. -/
def readCurrent (c : Combined) : Action Turn (Option Bool) := do
  match c.currentIndex with
  | some i =>
    modify fun s => { s with feed := .documents (c.readAt i).2 }
    return (c.readAt i).1
  | none => return none

/-- Moves a counted loop on; says whether there is one more run. -/
def moveCounted (reached : Bool) : Action Turn Bool := do
  let l := (← get).loop
  if l.count ≠ 0 ∧ l.fetch then
    if l.count = 1 then save
    if reached then return false else readRecord
  else return true

/-- Moves a loop over documents on; says whether there is one more run. -/
def moveDocuments (c : Combined) (previous : Option Nat) : Action Turn Bool := do
  let s ← get
  if s.loop.fetch then
    let (moved, c) := c.next
    modify fun s => { s with feed := .documents c }
    if moved then let _ ← readCurrent c
    return moved
  else if previous = some c.size ∧ c.cursor = some c.size then return false
  else if s.loop.count ≠ 0 ∧ previous = c.cursor then
    .failAt .stalledDocuments (s.tree.describe s.loop.anchor)
  else
    setLoop fun l => { l with strategy := .documents c.cursor }
    return true

/-- Moves a loop over records on; says whether there is one more run. -/
def moveRecords (c : Combined) (previous : Option Int) (reached : Bool) : Action Turn Bool := do
  let s ← get
  match c.current? with
  | none => .failAt .noDocumentForRecords (s.tree.describe s.loop.anchor)
  | some e =>
    if s.loop.count ≠ 0 ∧ s.loop.fetch then
      if reached then return false else return (← readCurrent c).getD false
    else
      match e.table with
      | none => return false
      | some t =>
        if !t.valid then return false
        else if s.loop.count ≠ 0 ∧ previous = some t.lastRead then
          .failAt .stalledRecords (s.tree.describe s.loop.anchor)
        else
          setLoop fun l => { l with strategy := .records (some t.lastRead) }
          return true

/-- Moves the loop on; says whether there is one more run. -/
def move : Action Turn Bool := do
  let s ← get
  let reached := s.loop.max.any (· ≤ s.loop.count)
  match s.loop.strategy, s.feed with
  | .counted _, .records _ => moveCounted reached
  | .documents previous, .documents c => moveDocuments c previous
  | .records previous, .documents c => moveRecords c previous reached
  | _, _ => .fail (.wrongFeed (s.tree.describe s.loop.anchor))

/-- Ends the loop: what was saved is restored, and the walk goes on behind the loop. -/
def finish : Action Turn Unit := do
  modify fun s =>
    match s.loop.strategy, s.feed with
    | .counted true, .records table =>
      { s with
        loop := { s.loop with strategy := .counted false }
        feed := .records (table.map Table.pop) }
    | _, _ => s
  let s ← get
  match s.tree.nextSibling? s.loop.anchor with
  | some next => goOn ⟨s.loop.key, next⟩
  | none => pure ()

/-- Puts a copy of the loop's node behind it, and goes over to the copy. -/
def unroll : Action Turn Unit := do
  let s ← get
  let (copy, tree) := s.tree.deepClone s.loop.anchor
  modify fun s => { s with tree }
  let tree ← Action.ofExcept (tree.insertAfter s.loop.anchor copy)
  modify fun s => { s with tree, loop := { s.loop with anchor := copy } }

/-- Starts one more run, unless there is nothing to run or the maximum is passed. -/
def start : Action Turn Bool := do
  setLoop fun l => { l with count := l.count + 1 }
  let s ← get
  match s.tree.firstChild? s.loop.anchor with
  | none => finish; return false
  | some first =>
    if s.loop.max.any (· < s.loop.count) then
      finish
      return false
    else if 1 < s.loop.count then
      if s.loop.unrolling then unroll
      modify fun s => { s with tree := s.tree.setSeq s.loop.anchor (s.loop.count - 1) }
      let s ← get
      goOn ⟨s.loop.bodyKey, (s.tree.firstChild? s.loop.anchor).getD first⟩
      return true
    else
      goOn ⟨s.loop.bodyKey, first⟩
      return true

/-- Starts the next run, or ends the loop; says which. -/
def next : Action Turn Bool := do
  if ← move then start
  else
    finish
    return false

end Turn

end Loop

end Stencil
