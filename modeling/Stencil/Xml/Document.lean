/-
  Documents.

  Reading a document turns its tokens into one element (`Document.ofTokens`).  Tags must nest: a
  closing tag names the element that is open, with its namespace.  There is exactly one element at the
  top; text around it does not matter.  Of an element is kept:

    * its name without the namespace;
    * its attributes under their full names, declarations of namespaces apart, their references
      replaced;
    * all text directly inside it, references replaced, in one piece.  An element with children, whose
      own text is blank, has no text: what stands there only indents the children.

  `Document.parse` reads a text, `Document.load` a file, whose faults name the file.
-/
import Stencil.Files
import Stencil.Tree.Element
import Stencil.Xml.Token

set_option autoImplicit false

namespace Stencil.Xml

/-- An element that has been opened. -/
structure Open where
  /-- The name as written in the tag. -/
  written : List Char
  /-- The declared attributes. -/
  attrs : Entries String
  /-- The text read so far. -/
  text : String
  /-- The children read so far, last first. -/
  children : List Element

namespace Open

/-- The name without the namespace. -/
def name (o : Open) : String := String.ofList (localName o.written)

/-- The element, when nothing more is to come. -/
def close (o : Open) : Element :=
  let text := if !o.children.isEmpty && Text.isBlankText o.text then "" else o.text
  .mk o.name o.attrs text .none o.children.reverse

/-- Appends text. -/
def addText (o : Open) (s : String) : Open := { o with text := o.text ++ s }

/-- Appends a child. -/
def addChild (o : Open) (e : Element) : Open := { o with children := e :: o.children }

end Open

/-- The declared attributes of a tag: declarations of namespaces dropped, references replaced. -/
def declaredAttributes : List (List Char × List Char) → Except XmlFault (Entries String)
  | [] => .ok []
  | (name, value) :: more =>
    if declaresNamespace name then declaredAttributes more
    else
      match unescape value, declaredAttributes more with
      | .error what, _ => .error (.malformed what)
      | _, .error f => .error f
      | .ok value, .ok attrs => .ok ((String.ofList name, String.ofList value) :: attrs)

/-- The element that a tag opens. -/
def openTag (content : List Char) : Except XmlFault Open :=
  match attributes content with
  | .error what => .error (.malformed what)
  | .ok attrs => (declaredAttributes attrs).map fun attrs => ⟨tagName content, attrs, "", []⟩

namespace Document

/-- Where the reading of a document stands. -/
structure Reading where
  /-- The elements that are open, the innermost first. -/
  opened : List Open
  /-- The element at the top, once it is closed. -/
  root : Option Element

namespace Reading

/-- Adds an element that is complete to the one around it, or makes it the top. -/
def add (r : Reading) (e : Element) : Reading :=
  match r.opened with
  | o :: os => { r with opened := o.addChild e :: os }
  | [] => { r with root := some e }

/-- Adds text to the innermost open element. -/
def addText (r : Reading) (s : String) : Reading :=
  match r.opened with
  | o :: os => { r with opened := o.addText s :: os }
  | [] => r

/-- Reads one token. -/
def step (r : Reading) : Token → Except XmlFault Reading
  | .fault what => .error (.malformed what)
  | .doctype => .ok r
  | .cdata cs => .ok (r.addText (String.ofList cs))
  | .text raw =>
    if r.opened.isEmpty then .ok r
    else
      match unescape raw with
      | .error what => .error (.malformed what)
      | .ok cs => .ok (r.addText (String.ofList cs))
  | .tag content =>
    match tagKind content with
    | (.closing, rest) =>
      match r.opened with
      | [] => .error (.malformed "closing tag without an opening one")
      | o :: os =>
        if closingName rest = o.written then .ok (add { r with opened := os } o.close)
        else .error (.malformed "closing tag of another element")
    | (kind, rest) =>
      if r.opened.isEmpty && r.root.isSome then .error .secondRoot
      else
        match openTag rest with
        | .error f => .error f
        | .ok o =>
          if kind = .empty then .ok (r.add o.close) else .ok { r with opened := o :: r.opened }

/-- What has been read, when there is nothing more. -/
def finish (r : Reading) : Except XmlFault Element :=
  match r.opened, r.root with
  | o :: _, _ => .error (.unclosed o.name)
  | [], none => .error .noRoot
  | [], some e => .ok e

/-- Reads tokens one after another. -/
def run (r : Reading) : List Token → Except XmlFault Element
  | [] => r.finish
  | t :: ts =>
    match r.step t with
    | .error f => .error f
    | .ok r => run r ts

end Reading

/-- The element that tokens make. -/
def ofTokens (tokens : List Token) : Except XmlFault Element := Reading.run ⟨[], none⟩ tokens

/-- Reads a document. -/
def parse (text : String) : Except Error Element :=
  match ofTokens (Token.ofString text) with
  | .ok e => .ok e
  | .error f => .error (.of (.xml f))

/-- Reads the document in a file. -/
def load (read : FileReader) (path : String) : Except Error Element :=
  match read path with
  | .error fault => .error (.of (.unreadableTemplate path fault))
  | .ok bytes =>
    match parse (Text.decodeText bytes) with
    | .ok e => .ok e
    | .error e => .error (.of (.xml (.inFile path e.text)))

end Document

end Stencil.Xml
