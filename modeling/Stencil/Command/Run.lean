/-
  Running a command.

  A run opens the counters, reads the documents, walks them, which writes the outputs, and saves the
  counters.  What it was doing when it failed is part of its `Failure`.  A run that fails while it walks
  leaves what it has written, and saves the counters if a value has been drawn.

  The files are a value, so a run touches nothing.  If it fails because it is not known what stands at
  a place (`Failure.unread?`), it can be repeated when that is known.
-/
import Stencil.Command
import Stencil.Counter.Store
import Stencil.Csv
import Stencil.Walk.Pull

set_option autoImplicit false

namespace Stencil.Command

/-! ## Failures -/

/-- The parts of a run. -/
inductive Task where
  | openCounters (path : String)
  | loadLayout (path : String)
  | readRecords (path : String)
  | compile (layout : String)
  | saveCounters (path : String)
  deriving DecidableEq, Repr

/-- What a run does in a part of it. -/
def Task.message : Task → String
  | .openCounters path => "opening counter store " ++ path
  | .loadLayout path => "loading template " ++ path
  | .readRecords path => "reading records " ++ path
  | .compile layout => "compiling " ++ layout
  | .saveCounters path => "saving counters to " ++ path

/-- Why a run failed, and at what. -/
structure Failure where
  /-- What the run was doing. -/
  task : Task
  /-- What went wrong. -/
  error : Error
  deriving DecidableEq, Repr

namespace Failure

/-- A text with every line but the first moved to the right. -/
def indent (text : String) : String :=
  String.join (text.toList.map fun c => if c = '\n' then "\n    " else c.toString)

/-- The failure as it is reported. -/
def report (f : Failure) : String :=
  "error: " ++ f.task.message ++ "\n\nCaused by:\n    " ++ indent f.error.text ++ "\n"

/-- The place that has to be looked at before the run can be repeated. -/
def unread? (f : Failure) : Option Place :=
  match f.error.cause with
  | .unreadable _ (.unread p) | .unreadableTemplate _ (.unread p) | .uncreatable _ (.unread p)
  | .file (.unread p) => some p
  | _ => none

end Failure

/-! ## Running -/

/-- A step of a run. -/
abbrev Step (α : Type) := EStateM Failure Files α

/-- A step that belongs to a part of a run. -/
def during {α : Type} (task : Task) (x : Action Files α) : Step α := fun fs =>
  match x fs with
  | .ok a fs => .ok a fs
  | .error e fs => .error ⟨task, e⟩ fs

/-- Reads a table. -/
def readTable (path : String) : Step Table := do
  let read := (← get).read
  during (.readRecords path) (.ofExcept (Csv.load read path))

/-- Reads a layout. -/
def readLayout (path : String) : Step Element := do
  let read := (← get).read
  during (.loadLayout path) (.ofExcept (Xml.Document.load read path))

/-- Reads the main document. -/
def readMain (c : Command) : Step Document := do
  let layout ← readLayout c.layout
  match c.records with
  | some path => return ⟨layout, some c.layout, some (← readTable path)⟩
  | none => return ⟨layout, some c.layout, none⟩

/-- Reads secondary documents. -/
def readSecondary : List (String × String) → Step (List Document)
  | [] => pure []
  | (layout, records) :: more => do
    let e ← readLayout layout
    let t ← readTable records
    return ⟨e, some layout, some t⟩ :: (← readSecondary more)

/-- The settings of a run. -/
def options (c : Command) (now : Moment) : Options := ⟨c.externals, c.baseDir, now⟩

/-- Walks the documents, whose outputs are files, and keeps the counters. -/
def compile (c : Command) (now : Moment) (fuel : Nat) (store : CounterStore) : Step Unit := do
  let main ← readMain c
  let secondary ← readSecondary c.secondary
  let walk := Walk.begin ⟨main, secondary, none, .files, store.counters, .stored [], ← get⟩
  let (r, walk) := walk.pullAll (c.options now) fuel fuel
  set walk.close.files
  let store : CounterStore :=
    { store with counters := walk.space.counters, dirty := store.dirty || walk.space.drawn }
  match r with
  | .ok _ =>
    let _ ← during (.saveCounters store.path) store.save
  | .error e =>
    modify store.close
    throw ⟨.compile c.layout, e⟩

/-- Runs a command.  If it names no file for the counters, they are in the directory `home`. -/
def run (c : Command) (home : String) (now : Moment) (fuel : Nat) : Step Unit := do
  let path := c.counters.getD (FilePath.join home "counter.xml")
  let store ← during (.openCounters path) (CounterStore.load path)
  c.compile now fuel store

end Stencil.Command
