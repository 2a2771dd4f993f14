/-
  Outputs.

  A *sink* takes fields and keeps their bytes in a stream.  A field may be *lazy*: it is written at once
  and written again, at the same place, when the part of the layout it belongs to is complete, because
  only then are the values known that it refers to.  Parts nest, so lazy fields wait on levels: `push`
  opens a level, `writeChunk` writes the fields that wait on the innermost one again, the last one first,
  and `pop` closes it.

  The bytes of a sink are kept in memory, or they belong in a file.  In the second case the last field
  may still be held back from the file (`Sink.visible` are the bytes that are not).

  A *text sink* has no levels and no lazy fields; it collects the name of an output.
-/
import Stencil.Field.Layout
import Stencil.Field.Value
import Stencil.Stream

set_option autoImplicit false

namespace Stencil

open Stencil.Text (boundedInt trim)

/-- A lazy field that waits, and the place where it is written again if it declares none. -/
structure Waiting where
  /-- The field. -/
  item : NodeId
  /-- The place of the field's first byte. -/
  offset : Option Nat
  deriving DecidableEq, Repr

/-- Where the bytes of a sink belong. -/
inductive Target where
  /-- They stay in memory, with whoever made the sink. -/
  | memory
  /-- They stay in memory, among the outputs of the run, under the name of the sink. -/
  | collected
  /-- In the file of a path, from which so many bytes at the end are still held back. -/
  | file (path : String) (held : Nat)
  deriving DecidableEq, Repr, Inhabited

/-- An output. -/
structure Sink where
  /-- The name. -/
  name : String
  /-- The bytes. -/
  stream : Stream
  /-- The lazy fields that wait, the innermost level first, on each level the last field first. -/
  levels : List (List Waiting)
  /-- Where the bytes belong. -/
  target : Target
  deriving Repr, Inhabited

namespace Sink

/-- A sink in memory, with nothing in it. -/
def inMemory (name : String) : Sink := ⟨name, .empty false, [], .memory⟩

/-- A sink whose bytes are collected under its name, with nothing in it. -/
def collecting (name : String) : Sink := ⟨name, .empty false, [], .collected⟩

/-- A sink whose bytes belong in a file, with nothing in it. -/
def inFile (path : String) : Sink := ⟨path, .empty false, [], .file path 0⟩

/-- The number of levels. -/
def depth (s : Sink) : Nat := s.levels.length

/-- Opens a level. -/
def push (s : Sink) : Sink := { s with levels := [] :: s.levels }

/-- Closes the innermost level. -/
def pop (s : Sink) : Sink := { s with levels := s.levels.tail }

/-- All bytes. -/
def toBytes (s : Sink) : Bytes := s.stream.toBytes

/-- Holds no byte back. -/
def flush (s : Sink) : Sink :=
  match s.target with
  | .file path _ => { s with target := .file path 0 }
  | _ => s

/-- The number of bytes that are held back at most, plus one. -/
def holdLimit : Nat := 8192

/-- The bytes that are not held back. -/
def visible (s : Sink) : Bytes :=
  match s.target with
  | .file _ held => (s.stream.bytes.take (s.stream.bytes.size - held)).toList
  | _ => s.toBytes

/-- How files are read while the sink is open: a file that the sink belongs to holds what is visible. -/
def reader (files : Files) (s : Sink) : FileReader := fun path =>
  match s.target with
  | .file own _ =>
    match files.locate path, files.locate own with
    | .ok p, .ok q => if p = q then .ok s.visible else files.read path
    | _, _ => files.read path
  | _ => files.read path

/-- Writes bytes at the position, or at a place.  What is written at the position is held back if it
    is short. -/
def emit (s : Sink) (place : Option Nat) (bs : Bytes) : Sink :=
  let target :=
    match s.target, place with
    | .file path held, none => .file path (if bs.length < holdLimit then held + bs.length else 0)
    | .file path _, some _ => .file path 0
    | target, _ => target
  { s with stream := s.stream.emit place bs, target }

@[simp] theorem depth_push (s : Sink) : s.push.depth = s.depth + 1 := rfl
@[simp] theorem depth_flush (s : Sink) : s.flush.depth = s.depth := by
  unfold flush; split <;> rfl
@[simp] theorem depth_emit (s : Sink) (place : Option Nat) (bs : Bytes) :
    (s.emit place bs).depth = s.depth := rfl
@[simp] theorem pop_push (s : Sink) : s.push.pop = s := rfl

end Sink

/-! ## Writing fields -/

/-- A sink at work: the sink and what its fields work on. -/
structure Job where
  /-- What fields work on. -/
  space : Workspace
  /-- The sink. -/
  sink : Sink
  deriving Repr, Inhabited

namespace Field

/-- Reads an offset. -/
def readOffset (text : String) : Except Error Nat :=
  match boundedInt .nat64 (trim text) with
  | .ok n => .ok n.toNat
  | .error _ => .error (.of (.badOffset text))

/-- The declared offset of a field. -/
def offset? (t : Tree) (item : NodeId) : Except Error (Option Nat) :=
  match t.attr? item "offset" with
  | some text => (readOffset text).map some
  | none => .ok none

/-- What is written for a field. -/
structure Written where
  /-- The place; none for the position of the sink. -/
  place : Option Nat
  /-- The bytes and the width. -/
  layout : Layout
  deriving DecidableEq, Repr

/-- Works out what is written for a field, and keeps its value with it.  A place that is given goes
    before a declared one. -/
def prepare (o : Options) (read : FileReader) (item : NodeId) (place : Option Nat) :
    Action Workspace Written := do
  let text ← value o read item
  Workspace.modifyTree fun t => t.modifyComputed item fun c => { c with result := some text }
  let t := (← get).tree
  let place ← match place with
    | some n => pure (some n)
    | none => Action.ofExcept (offset? t item)
  return ⟨place, ← Action.ofExcept (layout t item text)⟩

/-- Keeps the width of a field with it. -/
def record (item : NodeId) (l : Layout) : Action Workspace Unit :=
  match l.recorded with
  | some n => Workspace.modifyTree fun t =>
    t.modifyComputed item fun c => { c with resultBytes := some n }
  | none => pure ()

end Field

namespace Job

/-- A step on what fields work on. -/
def onSpace {α : Type} (x : Action Workspace α) : Action Job α :=
  .within (fun j => j.space) (fun space j => { j with space }) x

/-- Changes the sink. -/
def modifySink (f : Sink → Sink) : Action Job Unit := modify fun j => { j with sink := f j.sink }

/-- Writes a field at a place, or else at the one it declares, or else at the position of the sink.
    Nothing is written if the field cannot be worked out. -/
def write (o : Options) (files : Files) (item : NodeId) (place : Option Nat) : Action Job Unit :=
  .locating (fun j => j.space.tree.describe item) do
    let read := (← get).sink.reader files
    let w ← onSpace (Field.prepare o read item place)
    modifySink fun s => s.emit w.place w.layout.bytes
    onSpace (Field.record item w.layout)

/-- Writes a field, and lets it wait if it is lazy.  A lazy field needs a level. -/
def setData (o : Options) (files : Files) (item : NodeId) : Action Job Unit := do
  let isLazy := (← get).space.tree.attr? item "eval" == some "lazy"
  let position := (← get).sink.stream.position
  modifySink Sink.flush
  write o files item none
  if isLazy then
    let t := (← get).space.tree
    let offset := if (t.attr? item "offset").isSome then none else some position
    match (← get).sink.levels with
    | [] => .fail (.lazyOutsideChunk (t.describe item))
    | level :: levels => modifySink fun s => { s with levels := (⟨item, offset⟩ :: level) :: levels }

/-- Drops the first field that waits on the innermost level. -/
def dropWaiting (s : Sink) : Sink :=
  match s.levels with
  | [] => s
  | level :: levels => { s with levels := level.tail :: levels }

/-- Writes fields again, each of which no longer waits. -/
def replay (o : Options) (files : Files) : List Waiting → Action Job Unit
  | [] => pure ()
  | w :: ws => do
    modifySink dropWaiting
    write o files w.item w.offset
    replay o files ws

/-- Writes the fields that wait on the innermost level again. -/
def writeChunk (o : Options) (files : Files) : Action Job Unit := do
  replay o files ((← get).sink.levels.headD [])

/-- Completes and closes so many levels. -/
def closeLevels (o : Options) (files : Files) : Nat → Action Job Unit
  | 0 => pure ()
  | n + 1 => do
    writeChunk o files
    modifySink Sink.pop
    closeLevels o files n

/-- Completes and closes all levels. -/
def closeAll (o : Options) (files : Files) : Action Job Unit := do
  closeLevels o files (← get).sink.depth

end Job

/-! ## Text sinks -/

namespace TextSink

/-- A text sink with nothing in it. -/
def empty : Sink := ⟨"", .empty true, [], .memory⟩

/-- The text that has been collected. -/
def contents (s : Sink) : String := Text.decodeUtf8 s.toBytes

end TextSink

end Stencil
