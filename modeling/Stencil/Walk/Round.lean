/-
  The rounds of a walk.

  A round visits one node, or ends a run of siblings, or ends a document.

    * At the end of a run whose parent is a loop, the loop is asked for one more run (`closeLoops`).  If
      it ends and nothing is behind it in a loop around it, that loop is asked, too.
    * A level of the sink belongs to each document, and to each loop from its second run on: the lazy
      fields of the first run wait on the level around the loop.
    * A `writer` completes the open sink, which is handed out; the next sink is opened when the walk is
      resumed.
-/
import Stencil.Walk.Item

set_option autoImplicit false

namespace Stencil.Walk

/-! ## Documents -/

/-- Gives numbers to loops that have none. -/
def numberLoops (next : Nat) (t : Tree) : List NodeId → Nat × Tree
  | [] => (next, t)
  | n :: ns =>
    if t.name n == "repeat" && (t.computed n).repeatId.isNone then
      numberLoops (next + 1) (t.modifyComputed n fun c => { c with repeatId := some next }) ns
    else numberLoops next t ns

/-- A document that is about to be walked. -/
structure Entry where
  /-- The document. -/
  document : Import.Placed
  /-- Where its fields find their records. -/
  source : Source
  /-- Whether the secondary documents can be seen from it. -/
  seesSecondary : Bool
  /-- Whether it is given up at its end. -/
  owned : Bool
  deriving DecidableEq, Repr

/-- Begins to walk a document. -/
def enter (o : Options) (e : Entry) : Action Walk Unit := do
  let load := (← get).loader
  onDesk (Import.resolve o load e.document)
  let root := e.document.root
  modify fun w =>
    let t := w.space.tree
    let (nextLoop, tree) := numberLoops w.nextLoop t (t.descendants root)
    { w with nextLoop, space := { w.space with tree } }
  pushLevel
  modify fun w =>
    let scan : List Position :=
      match w.space.tree.firstChild? root with
      | some first => [⟨"", first⟩]
      | none => []
    { w with frames :=
      ⟨e.document.path, e.source, e.seesSecondary, scan, [], none,
        if e.owned then some root else none⟩ :: w.frames }

/-- Ends the innermost document. -/
def leave (o : Options) : Action Walk Unit := do
  completeLevel o
  popLevel
  let w ← get
  match w.frames with
  | [] => pure ()
  | f :: more =>
    set { w with frames := more }
    match f.owned with
    | some root => modifyTree fun t => t.release root
    | none => pure ()

/-! ## Loops -/

/-- What a loop moves on. -/
def feedOf (w : Walk) (f : Frame) (l : Loop) : Feed :=
  if l.feedsOnDocuments then .documents (w.visible f) else .records (w.tableOf f.source)

/-- The walk behind a step of a loop. -/
def afterTurn (w : Walk) (f : Frame) (s : Loop.Turn) : Walk :=
  let w := { w with space := { w.space with tree := s.tree } }
  let w :=
    match s.feed with
    | .documents c => if f.seesSecondary then { w with secondary := c } else w
    | .records t => w.setTable f.source t
  match w.frames with
  | [] => w
  | top :: more => { w with frames := { top with scan := s.scan } :: more }

/-- Starts the next run of a loop, or ends it; says which, and gives the loop. -/
def turn (f : Frame) (l : Loop) : Action Walk (Bool × Loop) := fun w =>
  match Loop.Turn.next ⟨l, w.space.tree, w.feedOf f l, f.scan⟩ with
  | .ok more s => .ok (more, s.loop) (w.afterTurn f s)
  | .error e s => .error e (w.afterTurn f s)

/-- Begins the loop of a node. -/
def startLoop (f : Frame) (key : String) (node : NodeId) : Action Walk Unit := do
  let visible := (← get).visible f
  let l ← onTree (Loop.enter node key visible)
  let (more, l) ← turn f l
  if more then modifyFrame fun f => { f with loops := l :: f.loops }

/-- Whether the loop around `node`, which has ended, ends a run itself. -/
def cascades (t : Tree) (loops : List Loop) (node : NodeId) : Bool :=
  !loops.isEmpty && (t.nextSibling? node).isNone && (t.parent? node).any fun p => t.name p == "repeat"

/-- Asks the loops around a run that has ended; `parents` are the nodes around it, the nearest
    first. -/
def closeLoops (o : Options) : List NodeId → Action Walk Unit
  | [] => pure ()
  | parent :: parents => do
    let t := (← get).space.tree
    if t.name parent == "repeat" then
      if (t.computed parent).seq = some 0 then pushLevel else completeLevel o
      match (← get).frames with
      | [] => pure ()
      | f :: _ =>
        match f.loops with
        | [] => .fail (.strayLoopEnd ((← get).space.tree.describe parent))
        | l :: outer =>
          let (more, l) ← turn f l
          if more then modifyFrame fun f => { f with loops := l :: outer }
          else
            modifyFrame fun f => { f with loops := outer }
            popLevel
            if cascades (← get).space.tree outer parent then closeLoops o parents

/-! ## Outputs -/

/-- A new sink. -/
def newSink (o : Options) (kind name : String) : Action Walk Sink := do
  let w ← get
  match w.outputs.store, kind with
  | .memory, "binary-file" | .memory, "memory" =>
    let s := Sink.collecting name
    set (keep s w)
    return s
  | .files, "binary-file" =>
    let path := o.resolve name none
    match w.files.write path [] with
    | .error fault => .fail (.uncreatable path fault)
    | .ok files =>
      set { w with files }
      return .inFile path
  | _, _ => .fail (.unknownWriterType kind)

/-- Opens the sink that a `writer` asks for. -/
def openSink (o : Options) (f : Frame) (node : NodeId) : Action Walk Unit := do
  let kind := ((← get).space.tree.attr? node "type").getD ""
  let name ← render o f node
  let s ← Action.locating (fun w => w.space.tree.describe node) (newSink o kind name)
  modify fun w => { w with sink := some (Nat.repeat Sink.push w.depth s) }

/-- Completes the open sink and takes it off the walk, whether that succeeds or not. -/
def takeSink (o : Options) (s : Sink) : Action Walk Sink := fun w =>
  let files := w.files
  let space := w.space
  let rest := { w with sink := none, space := default }
  match Job.closeAll o files ⟨space, s⟩ with
  | .ok _ j => .ok j.sink.flush (keep j.sink { rest with space := j.space })
  | .error e j => .error e (keep j.sink { rest with space := j.space })

/-! ## Visits -/

/-- What follows a visit. -/
inductive Visit where
  /-- The walk goes on. -/
  | done
  /-- A sink is handed out. -/
  | yield (s : Sink)
  /-- The walk goes into a document. -/
  | enter (e : Entry)

/-- Visits a `writer`. -/
def visitWriter (o : Options) (f : Frame) (node : NodeId) : Action Walk Visit := do
  match (← get).sink with
  | none =>
    openSink o f node
    return .done
  | some s =>
    let s ← takeSink o s
    modify fun w => { w with rotation := some node }
    return .yield s

/-- Visits an `import` that is not static. -/
def visitImport (o : Options) (f : Frame) (node : NodeId) : Action Walk Visit := do
  let w ← get
  let t := w.space.tree
  let load := w.loader
  match t.attr? node "type" with
  | some "combined" =>
    match (w.visible f).currentIndex, (w.visible f).current? with
    | some i, some c =>
      onDesk (Import.edit o load node c.root f.path)
      return .enter ⟨⟨c.root, c.path⟩, .secondary i, false, false⟩
    | _, _ => .failAt .noDocumentForImport (t.describe node)
  | some "dynamic" =>
    let d ← onDesk (Import.place o load node f.path)
    onDesk (Import.edit o load node d.root f.path)
    return .enter ⟨d, f.source, false, true⟩
  | some "none" => return .done
  | other => .failAt (.unknownImportType (other.getD "")) (t.describe node)

/-- Visits a node. -/
def visit (o : Options) (f : Frame) (key : String) (node : NodeId) : Action Walk Visit := do
  let t := (← get).space.tree
  match ← Action.ofExcept (tagOf t node) with
  | .item =>
    fillItem f key node
    onSink fun files => Job.setData o files node
    return .done
  | .items =>
    let (t, scan) ← Action.ofExcept (descend t f.scan key node)
    modifyTree fun _ => t
    modifyFrame fun f => { f with scan }
    return .done
  | .loop =>
    startLoop f key node
    return .done
  | .document => visitImport o f node
  | .writer => visitWriter o f node
  | .nop => return .done

/-! ## Rounds -/

/-- What follows a round. -/
inductive Progress where
  /-- The walk goes on. -/
  | goOn
  /-- A sink is handed out. -/
  | yield (s : Sink)
  /-- The walk is over. -/
  | finished

/-- The run that comes next in a frame, and the frame without it. -/
def takeRun (f : Frame) : Option (Run × Frame) :=
  match f.run, f.scan with
  | some r, _ => some (r, { f with run := none })
  | none, p :: scan => some (⟨p.key, p.node, some p.node, scan.length⟩, { f with scan })
  | none, [] => none

/-- Goes on with a run behind a node, unless the visit has put positions on the scan. -/
def resume (r : Run) (node : NodeId) : Action Walk Unit :=
  modify fun w =>
    match w.frames with
    | [] => w
    | f :: more =>
      if f.scan.length = r.base then
        { w with frames :=
          { f with run := some { r with next := w.space.tree.nextSibling? node } } :: more }
      else w

/-- Makes the change of output that is due. -/
def rotate (o : Options) : Action Walk Unit := do
  let w ← get
  match w.rotation, w.frames with
  | some node, f :: _ =>
    set { w with rotation := none }
    openSink o f node
  | _, _ => pure ()

/-- Ends the walk: hands out the last sink, if there is one. -/
def finish : Action Walk Progress := do
  let w ← get
  match w.sink with
  | none => return .finished
  | some s =>
    set (keep s { w with sink := none })
    return .yield s.flush

/-- Visits the next node of a run. -/
def advance (o : Options) (f : Frame) (r : Run) (node : NodeId) : Action Walk Progress := do
  let v ← Action.locating (fun w => w.space.tree.describe node) (visit o f r.key node)
  resume r node
  match v with
  | .done => return .goOn
  | .yield s => return .yield s
  | .enter e =>
    enter o e
    return .goOn

/-- One round. -/
def round (o : Options) : Action Walk Progress := do
  rotate o
  let w ← get
  match w.frames with
  | [] => finish
  | f :: more =>
    match takeRun f with
    | none =>
      leave o
      return .goOn
    | some (r, f) =>
      set { w with frames := f :: more }
      match r.next with
      | some node => advance o f r node
      | none =>
        closeLoops o (w.space.tree.ancestors r.first)
        return .goOn

end Stencil.Walk
