/-
  The state of a walk.

  A walk goes through a layout, writes its fields to an output, and follows the loops, the imported
  documents and the changes of output in it.  It does not call itself: where it is, and where it has to
  go on, is kept in the state.

    * Each document that is being walked has a `Frame`, the innermost first.
    * In a frame, the walk moves along a `Run` of siblings.  If a node makes the walk go elsewhere, the
      rest of the run is left; whatever made it go elsewhere has put positions on the `scan`, among them
      the one where it comes back.
    * The loops that run in a document are a stack of the frame.

  `Walk` holds the frames and all that a walk works on.  The definitions here are the parts of the state
  that the steps of a walk use.
-/
import Stencil.Import
import Stencil.Loop
import Stencil.Sink

set_option autoImplicit false

namespace Stencil

/-- A layout with its records. -/
structure Document where
  /-- The layout. -/
  layout : Element
  /-- The path of the layout. -/
  path : Option String
  /-- The records. -/
  table : Option Table
  deriving Repr

/-- Where the fields of a document find their records. -/
inductive Source where
  /-- In the table of the main document. -/
  | main
  /-- In the table of a secondary document. -/
  | secondary (index : Nat)
  deriving DecidableEq, Repr

/-- A place in a run of siblings. -/
structure Run where
  /-- The key of what contains the siblings. -/
  key : String
  /-- The sibling at which the run began. -/
  first : NodeId
  /-- The sibling that comes next; none at the end. -/
  next : Option NodeId
  /-- The number of positions on the scan when the run began. -/
  base : Nat
  deriving DecidableEq, Repr

/-- A document that is being walked. -/
structure Frame where
  /-- The path of the document. -/
  path : Option String
  /-- Where its fields find their records. -/
  source : Source
  /-- Whether the secondary documents can be seen from it. -/
  seesSecondary : Bool
  /-- Where the walk goes on, the next position first. -/
  scan : List Position
  /-- The loops that run, the innermost first. -/
  loops : List Loop
  /-- The run that is being walked. -/
  run : Option Run
  /-- The root of the document, if the document is given up with the frame. -/
  owned : Option NodeId
  deriving DecidableEq, Repr

/-- Where the outputs of a run are made. -/
inductive Store where
  /-- In memory. -/
  | memory
  /-- In files. -/
  | files
  deriving DecidableEq, Repr

/-- The outputs of a run. -/
structure Outputs where
  /-- Where outputs are made. -/
  store : Store
  /-- The bytes of outputs in memory, under their names. -/
  collected : Entries Bytes
  /-- The bytes of the sink that the walk began with, when it is complete. -/
  initial : Bytes
  deriving Repr

/-- How far a walk is. -/
inductive Phase where
  /-- It has not begun; the main document stands ready. -/
  | ready (document : Import.Placed)
  | running
  | done
  deriving DecidableEq, Repr

/-- A walk. -/
structure Walk where
  /-- What fields work on. -/
  space : Workspace
  /-- The documents that have been read. -/
  library : Library
  /-- The files. -/
  files : Files
  /-- The records of the main document. -/
  main : Option Table
  /-- The secondary documents. -/
  secondary : Combined
  /-- The documents that are being walked, the innermost first. -/
  frames : List Frame
  /-- The sink that is open. -/
  sink : Option Sink
  /-- The change of output that the walk has to make before it goes on. -/
  rotation : Option NodeId
  /-- The number of levels that an open sink has. -/
  depth : Nat
  /-- The number that the next new loop gets. -/
  nextLoop : Nat
  /-- The outputs. -/
  outputs : Outputs
  /-- How far the walk is. -/
  phase : Phase
  deriving Repr

namespace Walk

/-! ## Reading the state -/

/-- How files are read. -/
def reader (w : Walk) : FileReader :=
  match w.sink with
  | some s => s.reader w.files
  | none => w.files.read

/-- How documents are read. -/
def loader (w : Walk) : Loader := Xml.Document.load w.reader

/-- The records of a source. -/
def tableOf (w : Walk) : Source → Option Table
  | .main => w.main
  | .secondary i => w.secondary.tableAt? i

/-- The walk with other records for a source. -/
def setTable (w : Walk) (source : Source) (table : Option Table) : Walk :=
  match source, table with
  | .main, t => { w with main := t }
  | .secondary i, some t => { w with secondary := w.secondary.setTable i t }
  | .secondary _, none => w

/-- The secondary documents as a frame sees them. -/
def visible (w : Walk) (f : Frame) : Combined :=
  if f.seesSecondary then w.secondary else .ofList []

/-! ## Steps on parts of the state -/

/-- A step on what fields work on. -/
def onSpace {α : Type} (x : Action Workspace α) : Action Walk α :=
  .within (fun w => w.space) (fun space w => { w with space }) x

/-- Changes the tree. -/
def modifyTree (f : Tree → Tree) : Action Walk Unit := onSpace (Workspace.modifyTree f)

/-- A step on the tree. -/
def onTree {α : Type} (x : Action Tree α) : Action Walk α :=
  .within (fun w => w.space.tree) (fun tree w => { w with space := { w.space with tree } }) x

/-- A step on the documents that have been read, and the tree. -/
def onDesk {α : Type} (x : Action Import.Desk α) : Action Walk α :=
  .within (fun w => ⟨w.space.tree, w.library⟩)
    (fun d w => { w with space := { w.space with tree := d.tree }, library := d.library }) x

/-- A step on the open sink, if there is one. -/
def onSink (x : Files → Action Job Unit) : Action Walk Unit := fun w =>
  match w.sink with
  | none => .ok () w
  | some s =>
    let files := w.files
    let space := w.space
    let rest := { w with sink := none, space := default }
    match x files ⟨space, s⟩ with
    | .ok _ j => .ok () { rest with sink := some j.sink, space := j.space }
    | .error e j => .error e { rest with sink := some j.sink, space := j.space }

/-- Changes the innermost frame. -/
def modifyFrame (f : Frame → Frame) : Action Walk Unit :=
  modify fun w =>
    match w.frames with
    | [] => w
    | top :: more => { w with frames := f top :: more }

/-- Opens a level of the sink. -/
def pushLevel : Action Walk Unit := do
  onSink fun _ => Job.modifySink Sink.push
  modify fun w => { w with depth := w.depth + 1 }

/-- Closes a level of the sink. -/
def popLevel : Action Walk Unit := do
  onSink fun _ => Job.modifySink Sink.pop
  modify fun w => { w with depth := w.depth - 1 }

/-- Completes the innermost level of the sink. -/
def completeLevel (o : Options) : Action Walk Unit := onSink fun files => Job.writeChunk o files

/-- Puts the bytes of a sink where they belong. -/
def keep (s : Sink) (w : Walk) : Walk :=
  match s.target with
  | .memory => { w with outputs := { w.outputs with initial := s.toBytes } }
  | .collected =>
    { w with outputs :=
      { w.outputs with collected := w.outputs.collected.insert s.name s.toBytes } }
  | .file path _ =>
    match w.files.write path s.toBytes with
    | .ok files => { w with files }
    | .error _ => w

end Walk

end Stencil
