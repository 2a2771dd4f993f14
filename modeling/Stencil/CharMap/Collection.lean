/-
  The character maps of a run.

  Fields name the maps that their values go through.  A run is given all its maps under their names, with
  the texts that they use in the place of files; or a name is the path of a document, which is read when
  it is first named and kept.  The files that such a document names are taken from its own directory.
-/
import Stencil.CharMap
import Stencil.Options
import Stencil.Xml.Document

set_option autoImplicit false

namespace Stencil

instance : Inhabited CharMap := ⟨.ofRules .none⟩

/-- The character maps of a run. -/
inductive CharMaps where
  /-- All maps under their names, and the texts that they use. -/
  | given (maps : Entries CharMap) (texts : Entries String)
  /-- The maps that have been read so far, each with its path. -/
  | stored (maps : List (String × CharMap))
  deriving Repr

namespace CharMaps

instance : Inhabited CharMaps := ⟨.stored []⟩

/-- Reads the text in a file. -/
def readText (read : FileReader) (path : String) : Except Error String :=
  match read path with
  | .ok bytes => .ok (Text.decodeText bytes)
  | .error fault => .error (.of (.unreadable path fault))

/-- Reads the map in a file. -/
def load (read : FileReader) (path : String) : Except Error CharMap := do
  let document ← Xml.Document.load read path
  let kind := (document.attr? "type").getD ""
  if kind == "chara-map" then return .ofRules (← Rules.ofElement document)
  else throw (.atSite (.unknownTransformerType kind) path)

/-- Replaces the map of a path. -/
def setStored (path : String) (m : CharMap) : List (String × CharMap) → List (String × CharMap)
  | [] => [(path, m)]
  | (p, old) :: more =>
    if FilePath.same p path then (p, m) :: more else (p, old) :: setStored path m more

/-- Replaces a text with the help of one of the maps that are given. -/
def transformGiven (name input : String) : Action CharMaps String := fun s =>
  match s with
  | .stored maps => .error (.of (.unknownTransformer name)) (.stored maps)
  | .given maps texts =>
    match maps.get? name with
    | none => .error (.of (.unknownTransformer name)) s
    | some m =>
      let read (file : String) : Except Error String :=
        match texts.get? file with
        | some text => .ok text
        | none => .error (.of (.noTextNamed file))
      match CharMap.transform read input m with
      | .ok a m => .ok a (.given (maps.insert name m) texts)
      | .error e m => .error e (.given (maps.insert name m) texts)

/-- Replaces a text with the help of the map that is kept under a path. -/
def transformStored (o : Options) (read : FileReader) (path input : String) (m : CharMap)
    (maps : List (String × CharMap)) : EStateM.Result Error CharMaps String :=
  let readNamed (file : String) : Except Error String :=
    readText read (FilePath.join ((FilePath.parent? path).getD o.baseDir) file)
  match CharMap.transform readNamed input m with
  | .ok a m => .ok a (.stored (setStored path m maps))
  | .error e m => .error e (.stored (setStored path m maps))

/-- Replaces a text with the help of the map of a name. -/
def transform (o : Options) (read : FileReader) (name input : String) : Action CharMaps String :=
  fun s =>
  match s with
  | .given .. => transformGiven name input s
  | .stored maps =>
    let path := o.resolve name none
    match maps.find? fun p => FilePath.same p.1 path with
    | some (known, m) => transformStored o read known input m maps
    | none =>
      match load read path with
      | .error e => .error e s
      | .ok m => transformStored o read path input m (maps ++ [(path, m)])

end CharMaps

end Stencil
