/-
  The program.

  What a command does is worked out by `Command.run` on the files that are known.  As long as that is
  not enough, the place that is missing is looked at, and the run is repeated; then the files that the
  run has changed are written.
-/
import Std.Time.Zoned
import Stencil.Command.Run

set_option autoImplicit false

namespace Stencil.Main

/-- The number of rounds that a walk may take. -/
def patience : Nat := 18446744073709551616

/-- The text that `--help` shows. -/
def usage : String := String.join [
  "Compile CSV records into binary files described by XML templates\n\n",
  "Usage: stencil [OPTIONS] --template <TEMPLATE>\n\n",
  "Options:\n",
  "      --template <TEMPLATE>       Main template file\n",
  "      --csv <CSV>                 Records for the main template\n",
  "      --combine <TEMPLATE> <CSV>  A secondary template and its records\n",
  "  -g <KEY> <VALUE>                External parameter\n",
  "      --counter <COUNTER>         Counter store [default: counter.xml next to the executable]\n",
  "      --base-dir <BASE_DIR>       Directory for relative paths [default: .]\n",
  "  -h, --help                      Print help\n",
  "  -V, --version                   Print version"]

/-- The text that `--version` shows. -/
def version : String := "stencil 0.1.0"

/-- The moment that the clock shows. -/
def now : IO Moment := do
  let t ← Std.Time.PlainDateTime.now
  return ⟨t.date.year.toInt, t.date.month.val.toNat, t.date.day.val.toNat, t.time.hour.val.toNat,
    t.time.minute.val.toNat, t.time.second.val.toNat, t.time.nanosecond.val.toNat⟩

/-- What stands at a place. -/
def look (p : Place) : IO FileEntry := do
  try
    let contents ← IO.FS.readBinFile p.toPath
    return .file contents.toList
  catch e =>
    match e with
    | .inappropriateType _ 21 _ => return .directory
    | .inappropriateType .. | .noFileOrDirectory .. => return .absent
    | _ => throw e

/-- Writes the files that a run has changed. -/
def writeChanges (before after : Files) : IO Unit :=
  (Files.changes before after).forM fun f => IO.FS.writeBinFile f.1 ⟨f.2.toArray⟩

/-- Runs a command; `known` are the files that have been looked at. -/
partial def runOn (c : Command) (home : String) (now : Moment) (known : Files) : IO UInt32 := do
  match c.run home now patience known with
  | .ok _ files =>
    writeChanges known files
    return 0
  | .error f files =>
    match f.unread? with
    | some p => runOn c home now (known.set p (← look p))
    | none =>
      writeChanges known files
      IO.eprint f.report
      return 1

end Stencil.Main

open Stencil in
/-- Runs the command that the arguments ask for. -/
def main (arguments : List String) : IO UInt32 := do
  match Command.Request.ofArguments arguments with
  | .error f =>
    IO.eprintln ("error: " ++ f.message)
    return 2
  | .ok .help =>
    IO.println Main.usage
    return 0
  | .ok .version =>
    IO.println Main.version
    return 0
  | .ok (.run c) =>
    let home := (FilePath.parent? (← IO.appPath).toString).getD ""
    Main.runOn c home (← Main.now) .unknown
