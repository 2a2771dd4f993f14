/-
  The markup of a document, cut into tokens.

  A document is text with markup in it.  Cutting it up needs no knowledge of what is open: a `<` begins
  markup, and what follows says how the markup ends.

    * A tag ends at the first `>` that is not inside quotation marks.
    * A processing instruction or declaration ends at the first `?>`.
    * A comment ends at the first `-->`, a CDATA section at the first `]]>`.
    * A document type declaration ends at the first `>` that is not the end of markup inside it.

  Tags, texts, CDATA sections and the places of document type declarations are kept, all else is
  dropped.  Markup that does not end, or does not begin as its kind must, is a fault, and nothing is
  read after it.  The word of a CDATA section is written in capitals, that of a document type
  declaration in letters of either case.

  `Token.scan` is one pass over the characters.  The second half of the module reads what is inside
  tokens: the name and the attributes of a tag (`tagName`, `attributes`), and the references to
  characters in texts and attribute values (`unescape`).
-/
import Stencil.Text.Blank

set_option autoImplicit false

namespace Stencil.Xml

open Stencil.Text (length_dropWhile_le)

/-- The white space of markup. -/
def isSpace (c : Char) : Bool := c == ' ' || c == '\t' || c == '\n' || c == '\r'

/-- A piece of a document. -/
inductive Token where
  /-- Text, with its references. -/
  | text (raw : List Char)
  /-- A tag, between its angle brackets. -/
  | tag (content : List Char)
  /-- The text of a CDATA section. -/
  | cdata (content : List Char)
  /-- A document type declaration. -/
  | doctype
  /-- Markup that is not well formed. -/
  | fault (what : String)
  deriving DecidableEq, Repr

namespace Token

/-! ## Cutting -/

/-- What is being read. -/
inductive Mode where
  /-- Text. -/
  | text
  /-- The first character after an opening angle bracket comes next. -/
  | opened
  /-- A tag, possibly inside quotation marks of one kind. -/
  | tag (mark : Option Char)
  /-- A processing instruction or declaration. -/
  | instruction
  /-- The character after an exclamation mark comes next. -/
  | exclaimed
  /-- A comment. -/
  | comment
  /-- A CDATA section. -/
  | cdata
  /-- A document type declaration, and how many pieces of markup are open in it. -/
  | doctype (depth : Nat)
  deriving DecidableEq, Repr

/-- The fault of markup that does not end. -/
def Mode.unfinished : Mode → String
  | .text => "text does not end"
  | .opened | .tag _ => "tag does not end"
  | .instruction => "processing instruction does not end"
  | .exclaimed => "markup begins with an exclamation mark and goes on wrongly"
  | .comment => "comment does not end"
  | .cdata => "CDATA section does not end"
  | .doctype _ => "document type declaration does not end"

/-- The text token of a text that is not empty. -/
def ofText (acc : List Char) (rest : List Token) : List Token :=
  if acc.isEmpty then rest else .text acc.reverse :: rest

/-- Whether a list of characters begins with another, the case of ASCII letters apart. -/
def startsWith (start cs : List Char) : Bool :=
  start.map Char.toLower == (cs.take start.length).map Char.toLower

/-- Cuts a document up.  `acc` is what has been read of the current piece, last character first. -/
def scan : Mode → List Char → List Char → List Token
  | mode, acc, [] =>
    match mode with
    | .text => ofText acc []
    | _ => [.fault mode.unfinished]
  | .text, acc, c :: cs =>
    if c = '<' then ofText acc (scan .opened [] cs) else scan .text (c :: acc) cs
  | .opened, _, c :: cs =>
    if c = '!' then scan .exclaimed ['!'] cs
    else if c = '?' then scan .instruction ['?'] cs
    else if c = '>' then .tag [] :: scan .text [] cs
    else if c = '"' ∨ c = '\'' then scan (.tag (some c)) [c] cs
    else scan (.tag none) [c] cs
  | .tag none, acc, c :: cs =>
    if c = '>' then .tag acc.reverse :: scan .text [] cs
    else if c = '"' ∨ c = '\'' then scan (.tag (some c)) (c :: acc) cs
    else scan (.tag none) (c :: acc) cs
  | .tag (some mark), acc, c :: cs =>
    if c = mark then scan (.tag none) (c :: acc) cs else scan (.tag (some mark)) (c :: acc) cs
  | .instruction, acc, c :: cs =>
    if c = '>' ∧ acc.head? = some '?' then
      if acc.length < 2 then [.fault Mode.instruction.unfinished] else scan .text [] cs
    else scan .instruction (c :: acc) cs
  | .exclaimed, acc, c :: cs =>
    if c = '[' then scan .cdata (c :: acc) cs
    else if c = '-' then scan .comment (c :: acc) cs
    else if c = 'D' ∨ c = 'd' then scan (.doctype 0) (c :: acc) cs
    else [.fault Mode.exclaimed.unfinished]
  | .comment, acc, c :: cs =>
    if c = '>' ∧ 4 < acc.length ∧ acc.take 2 = ['-', '-'] then
      if acc.reverse.take 3 = ['!', '-', '-'] then scan .text [] cs
      else [.fault Mode.comment.unfinished]
    else scan .comment (c :: acc) cs
  | .cdata, acc, c :: cs =>
    if c = '>' ∧ acc.take 2 = [']', ']'] then
      if acc.reverse.take 8 = "![CDATA[".toList then
        .cdata ((acc.drop 2).reverse.drop 8) :: scan .text [] cs
      else [.fault Mode.cdata.unfinished]
    else scan .cdata (c :: acc) cs
  | .doctype depth, acc, c :: cs =>
    if c = '>' then
      match depth with
      | 0 =>
        if startsWith "!DOCTYPE".toList acc.reverse && (acc.reverse.drop 8).any (!isSpace ·) then
          .doctype :: scan .text [] cs
        else [.fault (Mode.doctype 0).unfinished]
      | d + 1 => scan (.doctype d) (c :: acc) cs
    else if c = '<' then scan (.doctype (depth + 1)) (c :: acc) cs
    else scan (.doctype depth) (c :: acc) cs

/-- The tokens of a document. -/
def ofString (s : String) : List Token := scan .text [] s.toList

end Token

/-! ## Tags -/

/-- The kinds of tags. -/
inductive TagKind where
  | opening
  | closing
  /-- A tag that opens and closes. -/
  | empty
  deriving DecidableEq, Repr

/-- Whether a tag opens, closes or both, and what is left of it without the slash that says so. -/
def tagKind (content : List Char) : TagKind × List Char :=
  match content with
  | '/' :: cs => (.closing, cs)
  | _ =>
    if content.getLast? = some '/' then (.empty, content.dropLast) else (.opening, content)

/-- The name at the beginning of a tag, with its namespace. -/
def tagName (content : List Char) : List Char := content.takeWhile (!isSpace ·)

/-- The name in a closing tag: all of it but the white space at the end. -/
def closingName (content : List Char) : List Char :=
  match (content.reverse.dropWhile isSpace).reverse with
  | [] => content
  | name => name

/-- A name without its namespace: what is behind the first colon. -/
def localName (name : List Char) : List Char :=
  if name.contains ':' then (name.dropWhile (· ≠ ':')).drop 1 else name

/-- Reads one attribute behind its name: white space, an equals sign, white space, and a value in
    quotation marks.  Gives the value and what follows. -/
def attributeValue? (cs : List Char) : Option (List Char × List Char) :=
  match cs.dropWhile isSpace with
  | '=' :: cs =>
    match cs.dropWhile isSpace with
    | mark :: cs =>
      if mark = '"' ∨ mark = '\'' then
        match cs.dropWhile (· ≠ mark) with
        | _ :: rest => some (cs.takeWhile (· ≠ mark), rest)
        | [] => none
      else none
    | [] => none
  | _ => none

/-- Something follows a value only if something came before. -/
theorem length_of_attributeValue? {cs value rest : List Char}
    (h : attributeValue? cs = some (value, rest)) : rest.length < cs.length := by
  unfold attributeValue? at h
  split at h
  · rename_i ds h1
    have l1 := length_dropWhile_le isSpace cs
    rw [h1] at l1
    split at h
    · rename_i mark es h2
      have l2 := length_dropWhile_le isSpace ds
      rw [h2] at l2
      split at h
      · split at h
        · rename_i x r h3
          have l3 := length_dropWhile_le (fun c => decide (c ≠ mark)) es
          rw [h3] at l3
          simp only [Option.some.injEq, Prod.mk.injEq] at h
          obtain ⟨_, rfl⟩ := h
          simp only [List.length_cons] at l1 l2 l3
          omega
        · simp at h
      · simp at h
    · simp at h
  · simp at h

/-- The attributes at the beginning of a list of characters, names and values as written, up to the
    first fault, and whether there is none.  A name holds no white space and, its first character
    apart, no equals sign. -/
def leadingAttributes (cs : List Char) : List (List Char × List Char) × Bool :=
  match _h : cs.dropWhile isSpace with
  | [] => ([], true)
  | c :: ds =>
    let inName : Char → Bool := fun d => !(d == '=' || isSpace d)
    match _hv : attributeValue? (ds.dropWhile inName) with
    | none => ([], false)
    | some (value, rest) =>
      let (more, sound) := leadingAttributes rest
      ((c :: ds.takeWhile inName, value) :: more, sound)
termination_by cs.length
decreasing_by
  have l1 := length_dropWhile_le isSpace cs
  have l2 := length_dropWhile_le inName ds
  have l3 := length_of_attributeValue? _hv
  rw [_h] at l1
  simp only [List.length_cons] at l1
  omega

/-- Whether something in a list stands in it again. -/
def hasDuplicates : List (List Char) → Bool
  | [] => false
  | x :: xs => xs.contains x || hasDuplicates xs

/-- What follows the name in a tag. -/
def afterName (content : List Char) : List Char := content.drop (tagName content).length

/-- The attributes of a tag.  No name stands twice. -/
def attributes (content : List Char) : Except String (List (List Char × List Char)) :=
  match leadingAttributes (afterName content) with
  | (_, false) => .error "attribute without a value in quotation marks"
  | (attrs, true) =>
    if hasDuplicates (attrs.map Prod.fst) then .error "attribute stands twice" else .ok attrs

/-! ### Namespaces -/

/-- Whether an attribute declares a namespace. -/
def declaresNamespace (name : List Char) : Bool :=
  name == "xmlns".toList || "xmlns:".toList.isPrefixOf name

/-- The name of a namespace that belongs to markup itself. -/
def fixedNamespace (path : String) : String := String.join ["http:", "//", "www.w3.org/", path]

/-- The namespace that the prefix `xml` stands for. -/
def xmlNamespace : String := fixedNamespace "XML/1998/namespace"

/-- The namespace that the prefix `xmlns` stands for. -/
def xmlnsNamespace : String := fixedNamespace "2000/xmlns/"

/-- Whether an attribute leaves the namespaces alone that are fixed: the prefix `xmlns` is not declared,
    the prefix `xml` only as what it is, and no other prefix as one of these two. -/
def keepsFixedNamespaces (attr : List Char × List Char) : Bool :=
  if "xmlns:".toList.isPrefixOf attr.1 then
    let declared := String.ofList (attr.1.drop 6)
    let value := String.ofList attr.2
    if declared = "xmlns" then false
    else if declared = "xml" then value == xmlNamespace
    else value != xmlNamespace && value != xmlnsNamespace
  else true

/-! ## References -/

/-- Reads digits in some base; nothing else, and at least one. -/
def numberIn? (base : Nat) (digit? : Char → Option Nat) (cs : List Char) : Option Nat :=
  if cs.isEmpty then none
  else cs.foldl (fun n? c => n?.bind fun n => (digit? c).map fun d => base * n + d) (some 0)

/-- The value of a decimal digit. -/
def decimalDigit? (c : Char) : Option Nat :=
  if '0' ≤ c ∧ c ≤ '9' then some (c.toNat - 48) else none

/-- The value of a hexadecimal digit. -/
def hexadecimalDigit? (c : Char) : Option Nat :=
  if '0' ≤ c ∧ c ≤ '9' then some (c.toNat - 48)
  else if 'a' ≤ c ∧ c ≤ 'f' then some (c.toNat - 87)
  else if 'A' ≤ c ∧ c ≤ 'F' then some (c.toNat - 55)
  else none

/-- The character of a number, NUL and numbers of no character apart. -/
def character? (n : Nat) : Option Char :=
  if h : n.isValidChar ∧ n ≠ 0 then some (Char.ofNatAux n h.1) else none

/-- What a reference means: a number of a character, or one of five names. -/
def reference? (entity : List Char) : Option Char :=
  match entity with
  | '#' :: 'x' :: cs => (numberIn? 16 hexadecimalDigit? cs).bind character?
  | '#' :: cs => (numberIn? 10 decimalDigit? cs).bind character?
  | _ =>
    match String.ofList entity with
    | "lt" => some '<'
    | "gt" => some '>'
    | "amp" => some '&'
    | "apos" => some '\''
    | "quot" => some '"'
    | _ => none

/-- Replaces references.  `entity` is the reference that has begun, last character first. -/
def unescapeFrom (entity : Option (List Char)) : List Char → Except String (List Char)
  | [] =>
    match entity with
    | none => .ok []
    | some _ => .error "reference does not end"
  | c :: cs =>
    match entity with
    | none =>
      if c = '&' then unescapeFrom (some []) cs
      else
        match unescapeFrom none cs with
        | .error e => .error e
        | .ok ds => .ok (c :: ds)
    | some name =>
      if c = '&' then .error "reference does not end"
      else if c = ';' then
        match reference? name.reverse, unescapeFrom none cs with
        | none, _ => .error "reference to nothing"
        | some _, .error e => .error e
        | some d, .ok ds => .ok (d :: ds)
      else unescapeFrom (some (c :: name)) cs

/-- Replaces the references in a text or an attribute value. -/
def unescape (cs : List Char) : Except String (List Char) := unescapeFrom none cs

end Stencil.Xml
