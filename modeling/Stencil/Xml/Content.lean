/-
  Documents with their texts in place.

  Here a document is one `Node`: an element is a tag and a list of nodes, its content, in which texts
  stand where they stand in the document (`Node.root?`).  What follows the element at the top does not
  matter.

  Content is read as `Passage`s, which are texts and elements in turn (`passages?`):

    * Texts and CDATA sections that stand together are one text; comments between them do not part
      them.
    * White space is dropped in front of a text that follows a tag, and behind a text that a tag
      follows.  It is dropped before references are replaced, and CDATA sections keep theirs, so that
      white space can be written where it must not be dropped.
    * A text of which nothing is left is no passage.

  Elements that a reader does not want are passed over as a whole: nothing in them but their nesting
  has to be well formed.  A reader looks one node ahead, however.  So an element passed over whose
  content begins with text still counts as text for what follows it, and a first element in it has to
  keep the fixed namespaces.
-/
import Stencil.Xml.Token

set_option autoImplicit false

namespace Stencil.Xml

/-! ## Nodes -/

/-- A piece of content as it is written. -/
inductive Node where
  /-- Text, with its references. -/
  | text (raw : List Char)
  /-- The text of a CDATA section. -/
  | cdata (content : List Char)
  /-- A document type declaration. -/
  | doctype
  /-- An element: the inside of its tag, without a slash at the end, and its content. -/
  | element (tag : List Char) (content : List Node)
  deriving Repr

namespace Node

/-- An element that is open. -/
structure Frame where
  /-- The inside of its tag. -/
  tag : List Char
  /-- The content read so far, last first. -/
  content : List Node

/-- The element, when nothing more is to come. -/
def Frame.close (f : Frame) : Node := .element f.tag f.content.reverse

/-- Reads on inside an element, which stands in others, until the outermost ends. -/
def readIn (f : Frame) (around : List Frame) : List Token → Option Node
  | [] => none
  | .fault _ :: _ => none
  | .text raw :: ts => readIn ⟨f.tag, .text raw :: f.content⟩ around ts
  | .cdata cs :: ts => readIn ⟨f.tag, .cdata cs :: f.content⟩ around ts
  | .doctype :: ts => readIn ⟨f.tag, .doctype :: f.content⟩ around ts
  | .tag inside :: ts =>
    match tagKind inside, around with
    | (.opening, tag), _ => readIn ⟨tag, []⟩ (f :: around) ts
    | (.empty, tag), _ => readIn ⟨f.tag, .element tag [] :: f.content⟩ around ts
    | (.closing, name), outer =>
      if closingName name = tagName f.tag then
        match outer with
        | [] => some f.close
        | g :: gs => readIn ⟨g.tag, f.close :: g.content⟩ gs ts
      else none

/-- The element at the top of a document.  Only blank text, comments, instructions and document type
    declarations stand in front of it. -/
def root? : List Token → Option Node
  | [] => none
  | .fault _ :: _ => none
  | .cdata _ :: _ => none
  | .text raw :: ts => if raw.all isSpace then root? ts else none
  | .doctype :: ts => root? ts
  | .tag inside :: ts =>
    match tagKind inside with
    | (.opening, tag) => readIn ⟨tag, []⟩ [] ts
    | (.empty, tag) => some (.element tag [])
    | (.closing, _) => none

/-- The element at the top of a document that is given as text, possibly behind a byte order mark. -/
def ofString? (s : String) : Option Node :=
  match s.toList with
  | '\ufeff' :: cs => root? (Token.scan .text [] cs)
  | cs => root? (Token.scan .text [] cs)

end Node

/-! ## Passages -/

/-- A text or an element of content. -/
inductive Passage where
  /-- Text, its references replaced. -/
  | text (cs : List Char)
  /-- An element: the inside of its tag and its content. -/
  | element (tag : List Char) (content : List Node)
  deriving Repr

/-- Whether content goes on with text. -/
def goesOnWithText : List Node → Bool
  | .text _ :: _ | .cdata _ :: _ => true
  | _ => false

/-- The first node of content, blank texts apart. -/
def firstNode? : List Node → Option Node
  | [] => none
  | .text raw :: ns => if raw.all isSpace then firstNode? ns else some (.text raw)
  | n :: _ => some n

/-- Whether the attributes of a tag keep the fixed namespaces. -/
def tagKeepsNamespaces (tag : List Char) : Bool :=
  (leadingAttributes (afterName tag)).1.all keepsFixedNamespaces

/-- Whether an element can be passed over. -/
def canBePassed (content : List Node) : Bool :=
  match firstNode? content with
  | some (.element tag _) => tagKeepsNamespaces tag
  | _ => true

/-- Whether an element that is passed over leaves the reader behind a tag. -/
def leavesTag (content : List Node) : Bool :=
  match firstNode? content with
  | some (.text _) | some (.cdata _) => false
  | _ => true

/-- The name of an element without its namespace. -/
def elementName (tag : List Char) : String := String.ofList (localName (tagName tag))

/-- Drops the white space of markup at the end of a text. -/
def dropSpaceEnd (cs : List Char) : List Char := (cs.reverse.dropWhile isSpace).reverse

/-- Puts the text that has been gathered in front. -/
def Passage.gather (gathered : Option (List Char)) (ps : List Passage) : List Passage :=
  match gathered with
  | none => ps
  | some cs => .text cs :: ps

/-- The passages of content, of which the elements with some names are wanted.  `behindTag` says
    whether a tag came last, `gathered` is the text that has been read since. -/
def passagesFrom? (wanted : String → Bool) (behindTag : Bool) (gathered : Option (List Char)) :
    List Node → Option (List Passage)
  | [] => some (Passage.gather gathered [])
  | .text raw :: ns =>
    let cs := if behindTag then raw.dropWhile isSpace else raw
    if cs.isEmpty then passagesFrom? wanted behindTag gathered ns
    else
      let cs := if goesOnWithText ns then cs else dropSpaceEnd cs
      if cs.isEmpty && gathered.isNone then passagesFrom? wanted false none ns
      else
        match unescape cs with
        | .error _ => none
        | .ok ds => passagesFrom? wanted false (some (gathered.getD [] ++ ds)) ns
  | .cdata cs :: ns => passagesFrom? wanted false (some (gathered.getD [] ++ cs)) ns
  | .doctype :: ns => (passagesFrom? wanted true none ns).map (Passage.gather gathered)
  | .element tag content :: ns =>
    if !tagKeepsNamespaces tag then none
    else if wanted (elementName tag) then
      (passagesFrom? wanted true none ns).map fun ps =>
        Passage.gather gathered (.element tag content :: ps)
    else if canBePassed content then
      (passagesFrom? wanted (leavesTag content) none ns).map fun ps =>
        Passage.gather gathered (.element tag content :: ps)
    else none

/-- The passages of the content of an element. -/
def passages? (wanted : String → Bool) (content : List Node) : Option (List Passage) :=
  passagesFrom? wanted true none content

/-- The text of an element that holds nothing else. -/
def onlyText? (content : List Node) : Option String :=
  match passages? (fun _ => false) content with
  | some [] => some ""
  | some [.text cs] => some (String.ofList cs)
  | _ => none

end Stencil.Xml
