/-
  Walking.

  `Walk.begin` makes a walk ready: its documents stand in one tree, and nothing has happened.  Each
  `Walk.pull` goes on until the next sink is complete, which it hands out, or to the end.  A walk that
  has failed is over.  `Walk.pullAll` pulls until the end.
-/
import Stencil.Walk.Round

set_option autoImplicit false

namespace Stencil

namespace Walk

/-- The layouts and records of a walk, and all else that it is given. -/
structure Setup where
  /-- The main layout with its records. -/
  main : Document
  /-- The secondary layouts with their records. -/
  secondary : List Document
  /-- The sink that is open at the beginning. -/
  sink : Option Sink
  /-- Where outputs are made. -/
  store : Store
  /-- The counters. -/
  counters : Counters
  /-- The character maps. -/
  maps : CharMaps
  /-- The files. -/
  files : Files

/-- Puts secondary documents into the tree. -/
def placeAll (t : Tree) : List Document → List CombinedEntry × Tree
  | [] => ([], t)
  | d :: ds =>
    let (root, t) := t.graft none d.layout
    let (entries, t) := placeAll t ds
    (⟨root, d.path, d.table⟩ :: entries, t)

/-- A walk that has not begun.  The root of the main document is the node 0. -/
def begin (s : Setup) : Walk :=
  let (entries, tree) := placeAll (Tree.ofElement s.main.layout) s.secondary
  { space := ⟨tree, s.counters, false, s.maps⟩
    library := .empty
    files := s.files
    main := s.main.table
    secondary := .ofList entries
    frames := []
    sink := s.sink
    rotation := none
    depth := 0
    nextLoop := 0
    outputs := ⟨s.store, [], []⟩
    phase := .ready ⟨0, s.main.path⟩ }

/-- Goes on until a sink is complete, in at most so many rounds. -/
def rounds (o : Options) : Nat → Action Walk (Option Sink)
  | 0 => .fail .exhausted
  | n + 1 => do
    match ← round o with
    | .goOn => rounds o n
    | .yield s => return some s
    | .finished => return none

/-- Reads the first record and begins with the main document. -/
def start (o : Options) (document : Import.Placed) : Action Walk Unit := do
  modify fun w => { w with phase := .running, main := w.main.map fun t => t.read.2 }
  enter o ⟨document, .main, true, false⟩

/-- Goes on until a sink is complete, which is handed out, or to the end. -/
def pull (o : Options) (fuel : Nat) (w : Walk) : Except Error (Option Sink) × Walk :=
  let x : Action Walk (Option Sink) :=
    match w.phase with
    | .ready document => do start o document; rounds o fuel
    | .running => rounds o fuel
    | .done => pure none
  match Action.outcome x w with
  | (.ok (some s), w) => (.ok (some s), w)
  | (r, w) => (r, { w with phase := .done })

/-- The walk when nobody holds it any more: the bytes of an open sink are where they belong. -/
def close (w : Walk) : Walk :=
  match w.sink with
  | some s => keep s { w with sink := none }
  | none => w

/-- The bytes of the sink that the walk began with. -/
def initialBytes (w : Walk) : Bytes := w.close.outputs.initial

/-- The bytes of the outputs in memory, under their names, in the order in which they were made. -/
def collected (w : Walk) : Entries Bytes := w.close.outputs.collected

/-- Pulls until the end, at most so many times; gives the sinks that were handed out. -/
def pullAll (o : Options) (fuel : Nat) : Nat → Walk → Except Error (List Sink) × Walk
  | 0, w => (.error (.of .exhausted), w)
  | n + 1, w =>
    match pull o fuel w with
    | (.error e, w) => (.error e, w)
    | (.ok none, w) => (.ok [], w)
    | (.ok (some s), w) =>
      match pullAll o fuel n w with
      | (.ok ss, w) => (.ok (s :: ss), w)
      | (.error e, w) => (.error e, w)

/-- Walks a layout with its records and gives the bytes of the sink that is open at the beginning.
    Outputs that are opened on the way are dropped. -/
def toBytes (o : Options) (fuel : Nat) (files : Files) (layout : String) (table : Option Table) :
    Except Error Bytes := do
  let e ← Xml.Document.parse layout
  let w := begin
    ⟨⟨e, none, table⟩, [], some (.inMemory ""), .memory, .zero, .stored [], files⟩
  match pullAll o fuel fuel w with
  | (.ok _, w) => return w.initialBytes
  | (.error e, _) => throw e

end Walk

end Stencil
