/-
  Paths as texts.

  Documents name each other by paths, and a path is shown to the user just as it was built, so paths
  stay texts here.  Three operations build and compare them:

    * `join` puts a path behind a directory, unless it is absolute;
    * `parent?` cuts the last name off, with the separators before it;
    * `key` is what two spellings of a path have in common: repeated separators, a separator at the
      end and single dots after the beginning make no difference, but nothing else is folded.

  `resolve` says which file a document means by a path: relative paths are taken from the directory of
  the document that mentions them, or from a base directory if that document has no place of its own.
-/
set_option autoImplicit false

namespace Stencil.FilePath

/-- Cuts a list of characters at every slash. -/
def segmentsOf (acc : List Char) : List Char → List String
  | [] => [String.ofList acc.reverse]
  | c :: cs =>
    if c = '/' then String.ofList acc.reverse :: segmentsOf [] cs else segmentsOf (c :: acc) cs

/-- The pieces of a path between its slashes. -/
def segments (path : String) : List String := segmentsOf [] path.toList

/-- Whether a path starts at the root. -/
def isAbsolute (path : String) : Bool := path.toList.head? == some '/'

/-- The names of a path, when `first` says that its first segment comes next: empty segments and
    single dots do not count, except for a dot at the very beginning. -/
def namesFrom (first : Bool) : List String → List String
  | [] => []
  | s :: ss =>
    if s.isEmpty || (s == "." && !first) then namesFrom false ss else s :: namesFrom false ss

/-- What a path means as a text: whether it is absolute, and its names. -/
def key (path : String) : Bool × List String := (isAbsolute path, namesFrom true (segments path))

/-- Whether two paths are spellings of one. -/
def same (a b : String) : Bool := key a == key b

/-- Puts a path behind a directory. -/
def join (dir path : String) : String :=
  if isAbsolute path then path
  else if dir.isEmpty then path
  else if dir.toList.getLast? == some '/' then dir ++ path
  else dir ++ "/" ++ path

/-- Drops from the end of a list of segments those that are no names. -/
def dropEmptyEnd (segments : List String) : List String :=
  (segments.reverse.dropWhile fun s => s.isEmpty || s == ".").reverse

/-- The segments up to the last name before the last one; a dot at the very beginning is a name. -/
def parentSegments (segments : List String) : List String :=
  match segments with
  | "." :: rest =>
    match dropEmptyEnd rest with
    | [] => []
    | names => "." :: dropEmptyEnd names.dropLast
  | _ => dropEmptyEnd (dropEmptyEnd segments).dropLast

/-- The path without its last name; nothing if it has no name. -/
def parent? (path : String) : Option String :=
  if (key path).2.isEmpty then none
  else
    match parentSegments (segments path) with
    | [] => some (if isAbsolute path then "/" else "")
    | [""] => some "/"
    | ss => some ("/".intercalate ss)

/-- The path of the file that a document stored at `origin` means by `path`. -/
def resolve (base path : String) (origin : Option String) : String :=
  if isAbsolute path then path
  else
    match origin.bind parent? with
    | some dir => join dir path
    | none => join base path

/-- An absolute path means itself, wherever it is mentioned. -/
theorem resolve_of_isAbsolute {base path : String} {origin : Option String}
    (h : isAbsolute path = true) : resolve base path origin = path := by
  simp [resolve, h]

end Stencil.FilePath
