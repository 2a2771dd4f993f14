/-
  The command line.

  A command names a layout with its records, further layouts with theirs, values from outside, the file
  of the counters and a directory for relative paths.  `Request.ofArguments` reads it from arguments:

    * an argument that begins with a dash is an option, a lone dash apart; any other is a value;
    * an option takes the values that follow it, as many as it needs; if it needs one and has a long
      name, the value can stand behind an equals sign instead;
    * values that belong to no option are refused, and so are options that stand twice, if they cannot
      add up, and empty paths;
    * two dashes end the options, and nothing can follow them.

  Arguments are read from the left, and the first fault or the first request for help counts.
-/
import Stencil.Entries

set_option autoImplicit false

namespace Stencil

/-- What a command asks for. -/
structure Command where
  /-- The path of the main layout. -/
  layout : String
  /-- The path of its records. -/
  records : Option String
  /-- The paths of the further layouts and of their records. -/
  secondary : List (String × String)
  /-- Values from outside, under their names. -/
  externals : Entries String
  /-- The path of the file that keeps the counters. -/
  counters : Option String
  /-- The directory from which relative paths are taken where nothing else is said. -/
  baseDir : String
  deriving DecidableEq, Repr

namespace Command

/-! ## Options -/

/-- The options that take values. -/
inductive Switch where
  | layout
  | records
  | secondary
  | external
  | counters
  | baseDir
  deriving DecidableEq, Repr

namespace Switch

/-- The option as it is written. -/
def written : Switch → String
  | layout => "--template"
  | records => "--csv"
  | secondary => "--combine"
  | external => "-g"
  | counters => "--counter"
  | baseDir => "--base-dir"

/-- All options that have a long name. -/
def long : List Switch := [layout, records, secondary, counters, baseDir]

/-- Whether the option takes two values, and may stand more than once. -/
def isPair : Switch → Bool
  | secondary | external => true
  | _ => false

end Switch

/-- What can be wrong with arguments. -/
inductive UsageFault where
  /-- There is no such option. -/
  | unknownOption (text : String)
  /-- A value belongs to no option. -/
  | strayValue (text : String)
  /-- An option has too few values. -/
  | missingValue (switch : Switch)
  /-- The only value of an option that needs two stands in the same argument. -/
  | attachedValue (switch : Switch)
  /-- An option without values has one. -/
  | unneededValue (text : String)
  /-- An option stands twice. -/
  | repeated (switch : Switch)
  /-- A path is empty. -/
  | emptyPath (switch : Switch)
  /-- There is no layout. -/
  | noLayout
  deriving DecidableEq, Repr

/-- The wording of a fault. -/
def UsageFault.message : UsageFault → String
  | .unknownOption t => "unexpected argument '" ++ t ++ "'"
  | .strayValue t => "unexpected argument '" ++ t ++ "'"
  | .missingValue s =>
    if s.isPair then "'" ++ s.written ++ "' needs two values" else "'" ++ s.written ++ "' needs a value"
  | .attachedValue s => "'" ++ s.written ++ "' needs two values"
  | .unneededValue t => "'" ++ t ++ "' takes no value"
  | .repeated s => "'" ++ s.written ++ "' cannot be used more than once"
  | .emptyPath s => "'" ++ s.written ++ "' needs a path that is not empty"
  | .noLayout => "'--template' is required"

/-! ## Words -/

/-- An argument on its own. -/
inductive Word where
  | value (text : String)
  /-- An option, with the value that stands in the same argument. -/
  | switch (switch : Switch) (attached : Option String)
  | help
  | version
  /-- Two dashes. -/
  | finish
  | wrong (fault : UsageFault)
  deriving DecidableEq, Repr

namespace Word

/-- A word that begins with two dashes and goes on. -/
def ofLong (text : String) : Word :=
  let name := String.ofList (text.toList.takeWhile (· ≠ '='))
  let attached :=
    match text.toList.dropWhile (· ≠ '=') with
    | [] => none
    | _ :: rest => some (String.ofList rest)
  match Switch.long.find? fun s => s.written == name with
  | some s => .switch s attached
  | none =>
    match name, attached with
    | "--help", none => .help
    | "--version", none => .version
    | "--help", some _ | "--version", some _ => .wrong (.unneededValue name)
    | _, _ => .wrong (.unknownOption text)

/-- The word of an argument. -/
def ofArgument (text : String) : Word :=
  match text.toList with
  | ['-', '-'] => .finish
  | '-' :: '-' :: _ => ofLong text
  | ['-', 'g'] => .switch .external none
  | '-' :: 'g' :: rest => .switch .external (some (String.ofList rest))
  | '-' :: 'h' :: _ => .help
  | '-' :: 'V' :: _ => .version
  | '-' :: _ :: _ => .wrong (.unknownOption text)
  | _ => .value text

end Word

/-! ## Reading -/

/-- A command of which some options have been read. -/
structure Draft where
  /-- The path of the main layout. -/
  layout : Option String
  /-- The path of its records. -/
  records : Option String
  /-- The paths of the further layouts and of their records. -/
  secondary : List (String × String)
  /-- Values from outside. -/
  externals : Entries String
  /-- The path of the file that keeps the counters. -/
  counters : Option String
  /-- The directory for relative paths. -/
  baseDir : Option String
  deriving DecidableEq, Repr

namespace Draft

/-- Nothing has been read. -/
def empty : Draft := ⟨none, none, [], [], none, none⟩

/-- A path of an option that may stand once. -/
def path (s : Switch) (old : Option String) (value : String) : Except UsageFault (Option String) :=
  if old.isSome then .error (.repeated s)
  else if value.isEmpty then .error (.emptyPath s)
  else .ok (some value)

/-- Adds an option with one value. -/
def add (d : Draft) (s : Switch) (value : String) : Except UsageFault Draft :=
  match s with
  | .layout => (path s d.layout value).map fun layout => { d with layout }
  | .records => (path s d.records value).map fun records => { d with records }
  | .counters => (path s d.counters value).map fun counters => { d with counters }
  | .baseDir => (path s d.baseDir value).map fun baseDir => { d with baseDir }
  | .secondary | .external => .error (.missingValue s)

/-- Adds an option with two values. -/
def addPair (d : Draft) (s : Switch) (first second : String) : Except UsageFault Draft :=
  match s with
  | .secondary =>
    if first.isEmpty || second.isEmpty then .error (.emptyPath s)
    else .ok { d with secondary := d.secondary ++ [(first, second)] }
  | .external => .ok { d with externals := d.externals.insert first second }
  | _ => .error (.strayValue second)

/-- The command, when all options have been read. -/
def toCommand (d : Draft) : Except UsageFault Command :=
  match d.layout with
  | none => .error .noLayout
  | some layout =>
    .ok ⟨layout, d.records, d.secondary, d.externals, d.counters, d.baseDir.getD "."⟩

end Draft

/-- What arguments ask for. -/
inductive Request where
  | run (command : Command)
  | help
  | version
  deriving DecidableEq, Repr

namespace Request

/-- Reads words. -/
def ofWords (d : Draft) : List Word → Except UsageFault Request
  | [] => d.toCommand.map run
  | .switch s (some value) :: ws =>
    if s.isPair then .error (.attachedValue s)
    else
      match d.add s value with
      | .ok d => ofWords d ws
      | .error f => .error f
  | .switch s none :: .value first :: .value second :: ws =>
    if s.isPair then
      match d.addPair s first second with
      | .ok d => ofWords d ws
      | .error f => .error f
    else
      match d.add s first with
      | .ok _ => .error (.strayValue second)
      | .error f => .error f
  | .switch s none :: .value first :: ws =>
    match d.add s first with
    | .ok d => ofWords d ws
    | .error f => .error f
  | .switch s none :: _ => .error (.missingValue s)
  | .value text :: _ => .error (.strayValue text)
  | .help :: _ => .ok help
  | .version :: _ => .ok version
  | .finish :: .value text :: _ => .error (.strayValue text)
  | [.finish] => d.toCommand.map run
  | .finish :: _ :: _ => .error (.strayValue "--")
  | .wrong f :: _ => .error f

/-- Reads arguments. -/
def ofArguments (arguments : List String) : Except UsageFault Request :=
  ofWords .empty (arguments.map Word.ofArgument)

end Request

end Command

end Stencil
