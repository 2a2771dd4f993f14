/-
  Counters in a file.

  The file is a document with one `count` element for each counter: the value is its text, the name an
  attribute, which the counter without a name lacks.  `Counters.toXml` writes it and `Counters.ofXml`
  reads it.  In reading:

    * The element at the top may have any name and any attributes.
    * The counters stand together, under one name with or without a namespace, and no text between
      them or directly behind them.  Other elements, and text elsewhere, do not matter.
    * The name of a counter may have any namespace but `xml`.  Name and value may also be the text of
      elements, which are called `@name` and `$text`.  Neither may be given twice, and a counter must
      have a value.
    * No counter may stand twice.

  A `CounterStore` is a set of counters with its file.  Opening a store whose file does not exist
  creates the file; a store that is closed saves what has been drawn since it was last saved.
-/
import Stencil.Action
import Stencil.Counter
import Stencil.Files
import Stencil.Text.Integer
import Stencil.Xml.Content

set_option autoImplicit false

namespace Stencil

namespace Counters

/-! ## Writing -/

/-- A character of an attribute value in markup. -/
def escapeChar (c : Char) : String :=
  if c = '&' then "&amp;"
  else if c = '<' then "&lt;"
  else if c = '>' then "&gt;"
  else if c = '"' then "&quot;"
  else c.toString

/-- A text as an attribute value in markup. -/
def escape (s : String) : String := String.join (s.toList.map escapeChar)

/-- The element of a counter. -/
def countXml (name : Option String) (value : Int) : String :=
  "<count" ++
    (match name with
    | some n => " name=\"" ++ escape n ++ "\""
    | none => "")
    ++ ">" ++ toString value ++ "</count>"

/-- The document of some counters. -/
def toXml (c : Counters) : String :=
  "<counter>" ++ countXml none c.unnamed
    ++ String.join (c.named.map fun e => countXml (some e.1) e.2) ++ "</counter>"

/-! ## Reading -/

/-- The name of the elements that are counters. -/
def countName : String := "count"

/-- The name of an element whose text is the name of a counter. -/
def nameField : String := "@name"

/-- The name of an element whose text is the value of a counter. -/
def valueField : String := "$text"

/-- Whether an attribute is the name of a counter. -/
def isNameAttribute (name : List Char) : Bool :=
  Xml.localName name == "name".toList && !Xml.declaresNamespace name
    && !"xml:".toList.isPrefixOf name

/-- A field of a counter. -/
inductive EntryField where
  | name (s : String)
  | value (s : String)
  deriving DecidableEq, Repr

/-- The fields in the attributes of a counter. -/
def attributeFields? (attrs : List (List Char × List Char)) : Option (List EntryField) :=
  (attrs.filter fun a => isNameAttribute a.1).mapM fun a =>
    match Xml.unescape a.2 with
    | .ok cs => some (.name (String.ofList cs))
    | .error _ => none

/-- The fields in the content of a counter. -/
def contentFields? : List Xml.Passage → Option (List EntryField)
  | [] => some []
  | .text cs :: ps => do return .value (String.ofList cs) :: (← contentFields? ps)
  | .element tag content :: ps =>
    if Xml.elementName tag = nameField then do
      return .name (← Xml.onlyText? content) :: (← contentFields? ps)
    else if Xml.elementName tag = valueField then do
      return .value (← Xml.onlyText? content) :: (← contentFields? ps)
    else contentFields? ps

/-- A counter is a value, and a name or none, in any order. -/
def ofFields? : List EntryField → Option (Option String × Int)
  | [.value v] => (int64? v).map fun n => (none, n)
  | [.name s, .value v] | [.value v, .name s] => (int64? v).map fun n => (some s, n)
  | _ => none
where
  /-- Reads a signed integer of sixty-four bits. -/
  int64? (s : String) : Option Int := (Text.boundedInt .int64 s).toOption

/-- The counter of an element. -/
def counter? (tag : List Char) (content : List Xml.Node) : Option (Option String × Int) := do
  let attrs ← (Xml.attributes tag).toOption
  let named ← attributeFields? attrs
  let ps ← Xml.passages? (fun name => name = nameField || name = valueField) content
  let fields ← contentFields? ps
  ofFields? (named ++ fields)

/-- Whether a passage is a counter. -/
def isCount : Xml.Passage → Bool
  | .element tag _ => Xml.elementName tag = countName
  | .text _ => false

/-- Whether a passage is an element with a name, its namespace included. -/
def hasName (name : List Char) : Xml.Passage → Bool
  | .element tag _ => Xml.tagName tag == name
  | .text _ => false

/-- The counters among passages, if they stand together. -/
def counts? (ps : List Xml.Passage) : Option (List Xml.Passage) :=
  match ps.dropWhile (!isCount ·) with
  | .element tag content :: more =>
    let same := hasName (Xml.tagName tag)
    match more.dropWhile same with
    | .text _ :: _ => none
    | after => if after.any isCount then none else some (.element tag content :: more.takeWhile same)
  | _ => some []

/-- The counters of a document, in the order in which they stand, with their names. -/
def entries? (text : String) : Option (List (Option String × Int)) := do
  let .element tag content ← Xml.Node.ofString? text | none
  if !Xml.tagKeepsNamespaces tag then none
  let _ ← (Xml.attributes tag).toOption
  let ps ← Xml.passages? (fun name => name = countName) content
  (← counts? ps).mapM fun
    | .element tag content => counter? tag content
    | .text _ => none

/-- Adds the counters of elements; `seen` says whether the counter without a name is among those
    before. -/
def addAll (c : Counters) (seen : Bool) : List (Option String × Int) → Except Cause Counters
  | [] => .ok c
  | (some name, n) :: more =>
    if c.named.contains name then .error (.duplicateCounter name)
    else addAll (c.set (some name) n) seen more
  | (none, n) :: more =>
    if seen then .error .duplicateDefaultCounter else addAll (c.set none n) true more

/-- Reads the document of some counters. -/
def ofXml (text : String) : Except Cause Counters :=
  match entries? text with
  | none => .error (.malformedCounters "no document of counters")
  | some entries => addAll zero false entries

end Counters

/-! ## Stores -/

/-- Counters with the file that keeps them. -/
structure CounterStore where
  /-- The path of the file. -/
  path : String
  /-- The counters. -/
  counters : Counters
  /-- Whether something has been drawn since the file was written. -/
  dirty : Bool
  deriving Repr

namespace CounterStore

/-- Draws a value. -/
def draw (s : CounterStore) (name : Option String) : Except Error Int × CounterStore :=
  let (r, counters) := s.counters.draw name
  (r, { s with counters, dirty := true })

/-- Writes the file. -/
def save (s : CounterStore) : Action Files CounterStore := fun fs =>
  match fs.write s.path (Text.utf8Bytes s.counters.toXml) with
  | .ok fs => .ok { s with dirty := false } fs
  | .error fault => .error (.of (.file fault)) fs

/-- Reads the file of a path, or creates it. -/
def load (path : String) : Action Files CounterStore := do
  let fs ← get
  if fs.exists? path then
    match fs.read path with
    | .error fault => .fail (.unreadable path fault)
    | .ok bytes =>
      match Text.ofUtf8? bytes with
      | none => .fail (.unreadable path .notUtf8)
      | some text =>
        match Counters.ofXml text with
        | .error cause => .failAt cause path
        | .ok counters => return ⟨path, counters, false⟩
  else (CounterStore.mk path .zero true).save

/-- Saves what has been drawn since the file was written, if the file can be written. -/
def close (s : CounterStore) (fs : Files) : Files :=
  if s.dirty then
    match s.save fs with
    | .ok _ fs => fs
    | .error _ fs => fs
  else fs

end CounterStore

end Stencil
