/-
  The files of a run, as a value.

  A run reads layouts, records, character maps and counters from files and writes its output to files.
  `Files` holds all of them: the entry at every place that has one, in the order in which the entries
  came up.  Paths are followed name by name, so the faults are those of a real file system: a missing
  directory, a file in the place of a directory, a directory in the place of a file.

  Places above the current directory, and the root, are directories.  What stands at a place that has
  no entry is the same for all of them: nothing, if the value holds all files there are; or something
  that has not been looked at yet, if it holds only those that are known so far.  In the second case a
  run fails as soon as it needs to know more (`FileFault.unread`), and can be repeated when it is known.

    * `read` gives the bytes of a file, `write` creates or replaces it;
    * `put` also creates the directories it needs;
    * `changes` are the files that are new or different in comparison with an earlier value.
-/
import Stencil.Codec

set_option autoImplicit false

namespace Stencil

/-- How the files that a run refers to are read: the bytes under a path. -/
abbrev FileReader := String → Except FileFault Bytes

/-- What stands at a place. -/
inductive FileEntry where
  /-- Nothing. -/
  | absent
  | directory
  | file (contents : Bytes)
  /-- It has not been looked at. -/
  | unread
  deriving DecidableEq, Repr

/-- The files and directories of a run. -/
structure Files where
  /-- The entries, each with its place. -/
  entries : List (Place × FileEntry)
  /-- What stands at all other places. -/
  elsewhere : FileEntry
  deriving Repr

namespace Files

/-- No files at all. -/
def empty : Files := ⟨[], .absent⟩

/-- No file has been looked at. -/
def unknown : Files := ⟨[], .unread⟩

/-- What stands at a place.  A way without names leads to a directory. -/
def entry (fs : Files) (p : Place) : FileEntry :=
  if p.names.isEmpty then .directory
  else
    match fs.entries.find? fun e => e.1 == p with
    | some e => e.2
    | none => fs.elsewhere

/-- The entries with the one at `p` replaced, or added at the end. -/
def setEntry (p : Place) (e : FileEntry) : List (Place × FileEntry) → List (Place × FileEntry)
  | [] => [(p, e)]
  | x :: xs => if x.1 = p then (p, e) :: xs else x :: setEntry p e xs

/-- Replaces or adds what stands at a place. -/
def set (fs : Files) (p : Place) (e : FileEntry) : Files :=
  { fs with entries := setEntry p e fs.entries }

/-- Follows the segments of a path from a place.  Every segment needs a directory to stand in.  The
    last name need not exist: the outcome is the place it would have. -/
def follow (fs : Files) (p : Place) : List String → Except FileFault Place
  | [] => .ok p
  | s :: ss =>
    match fs.entry p with
    | .absent => .error .notFound
    | .unread => .error (.unread p)
    | .file _ => .error .notDirectory
    | .directory =>
      if s.isEmpty || s == "." then follow fs p ss
      else if s == ".." then follow fs p.up ss
      else if 255 < s.utf8ByteSize then .error .nameTooLong
      else follow fs (p.child s) ss

/-- The place a path leads to. -/
def locate (fs : Files) (path : String) : Except FileFault Place :=
  if path.isEmpty then .error .notFound
  else if path.toList.contains '\x00' then .error .nulInName
  else if 4096 ≤ path.utf8ByteSize then .error .nameTooLong
  else fs.follow (.start path) (FilePath.segments path)

/-- Whether anything stands under a path. -/
def exists? (fs : Files) (path : String) : Bool :=
  match fs.locate path with
  | .error _ => false
  | .ok p =>
    match fs.entry p with
    | .file _ | .directory => true
    | .absent | .unread => false

/-- The bytes of a file. -/
def read (fs : Files) (path : String) : Except FileFault Bytes :=
  match fs.locate path with
  | .error e => .error e
  | .ok p =>
    match fs.entry p with
    | .absent => .error .notFound
    | .unread => .error (.unread p)
    | .directory => .error .isDirectory
    | .file bytes => .ok bytes

/-- A path without the separators at its end. -/
def withoutSlashes (path : String) : String :=
  String.ofList (path.toList.reverse.dropWhile (· == '/')).reverse

/-- Creates or replaces a file in a directory that exists.  A path that ends in a separator means a
    directory, which cannot be written. -/
def write (fs : Files) (path : String) (bytes : Bytes) : Except FileFault Files :=
  let bare := withoutSlashes path
  match fs.locate (if bare.isEmpty then path else bare) with
  | .error e => .error e
  | .ok p =>
    match fs.entry p with
    | .directory => .error .isDirectory
    | .unread => .error (.unread p)
    | .file _ => if bare == path then .ok (fs.set p (.file bytes)) else .error .notDirectory
    | .absent => if bare == path then .ok (fs.set p (.file bytes)) else .error .isDirectory

/-- The places of the directories on the way to a place. -/
def ancestors (p : Place) : List String → List Place
  | [] => []
  | [_] => []
  | n :: ns => p.child n :: ancestors (p.child n) ns

/-- Creates or replaces a file and the directories it needs. -/
def put (fs : Files) (path : String) (bytes : Bytes) : Files :=
  let names := (FilePath.key path).2.filter (· ≠ ".")
  let start := Place.start path
  let dirs := ancestors start names
  let withDirs := dirs.foldl (fun f d => if f.entry d = .absent then f.set d .directory else f) fs
  withDirs.set (names.foldl Place.child start) (.file bytes)

/-- The files that are not in an earlier value, or are different there, in order of their paths. -/
def changes (before after : Files) : List (String × Bytes) :=
  let changed := after.entries.filterMap fun (p, e) =>
    match e with
    | .file bytes => if before.entry p = e then none else some (p.toPath, bytes)
    | _ => none
  changed.mergeSort fun a b => a.1 ≤ b.1

/-- What was set at a place stands there. -/
theorem entry_set (fs : Files) (p : Place) (e : FileEntry) (h : p.names ≠ []) :
    (fs.set p e).entry p = e := by
  have hp : p.names.isEmpty = false := by cases hn : p.names <;> simp_all
  have key : ∀ xs : List (Place × FileEntry),
      ((setEntry p e xs).find? fun x => x.1 == p) = some (p, e) := by
    intro xs
    induction xs with
    | nil => simp [setEntry]
    | cons x xs ih =>
      by_cases hx : x.1 = p
      · simp [setEntry, hx]
      · simp [setEntry, hx, ih]
  simp [set, entry, hp, key]

end Files

end Stencil
