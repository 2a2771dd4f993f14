/-
  What can go wrong, and how it is worded.

  Every failure is an `Error`: a `Cause`, which says what happened, and possibly a *site*, which names
  the place in a layout where it happened.  A cause belongs to one of nine `Kind`s; the kind decides
  how the error is introduced and whether a site may be attached to it.

    * `Cause.message` holds the wording of every cause, and `Error.text` the full line.
    * `Error.locate` attaches a site once: the first, innermost, site stays, and the five kinds that
      are not about a node never get one.

  Causes that come from a smaller language (numerals, path queries, documents, files) carry a fault
  of that language's own type.
-/
import Stencil.Place
import Stencil.Text.Integer
import Stencil.Text.Quoted

set_option autoImplicit false

namespace Stencil

open Stencil.Text (NumeralFault quote)

/-- The families of failures. -/
inductive Kind where
  /-- The layout is wrong in itself. -/
  | format
  /-- Records, files or documents that the layout refers to cannot be used. -/
  | inputData
  /-- A loop would never end. -/
  | infiniteLoop
  /-- A value cannot be turned into bytes. -/
  | encoding
  /-- A character map has no rule for its input. -/
  | transform
  /-- A table of records is malformed. -/
  | badData
  /-- A document is not well formed. -/
  | xml
  /-- The file system refused an operation. -/
  | io
  /-- Anything else. -/
  | custom
  deriving DecidableEq, Repr

namespace Kind

/-- The kinds that are about a node, and so may name its place. -/
def isLocatable : Kind → Bool
  | format | inputData | infiniteLoop | encoding => true
  | _ => false

end Kind

/-! ## Faults of the smaller languages -/

/-- Why the file system refused. -/
inductive FileFault where
  /-- Nothing stands under the path. -/
  | notFound
  /-- A directory stands under the path. -/
  | isDirectory
  /-- A file stands where the path needs a directory. -/
  | notDirectory
  /-- The path, or one name in it, is too long. -/
  | nameTooLong
  /-- The path holds a NUL. -/
  | nulInName
  /-- The contents are not UTF-8. -/
  | notUtf8
  /-- It is not known what stands at a place. -/
  | unread (place : Place)
  deriving DecidableEq, Repr

/-- The wording of a file fault. -/
def FileFault.message : FileFault → String
  | .notFound => "No such file or directory (os error 2)"
  | .isDirectory => "Is a directory (os error 21)"
  | .notDirectory => "Not a directory (os error 20)"
  | .nameTooLong => "File name too long (os error 36)"
  | .nulInName => "file name contained an unexpected NUL byte"
  | .notUtf8 => "stream did not contain valid UTF-8"
  | .unread place => "not looked at: " ++ place.toPath

/-- Why a text is no path query.  Tokens are given by their written form. -/
inductive QueryFault where
  | unterminatedLiteral
  | badNumber (text : String)
  | unexpectedCharacter (c : Char)
  | unexpected (found : String)
  | expected (token : String)
  | unsupportedAxis (name : String)
  | expectedNodeTest (found : String)
  deriving DecidableEq, Repr

/-- The wording of a query fault. -/
def QueryFault.message : QueryFault → String
  | .unterminatedLiteral => "unterminated string literal"
  | .badNumber text => "bad number " ++ quote text
  | .unexpectedCharacter c => "unexpected character '" ++ c.toString ++ "'"
  | .unexpected found => "unexpected " ++ found
  | .expected token => "expected " ++ token
  | .unsupportedAxis name => "unsupported axis '" ++ name ++ "'"
  | .expectedNodeTest found => "expected a node test, found " ++ found

/-- Why a text is no document. -/
inductive XmlFault where
  /-- The text ends inside an element. -/
  | unclosed (name : String)
  | secondRoot
  | noRoot
  /-- Markup that is not well formed; what is wrong with it. -/
  | malformed (what : String)
  /-- The fault of the document stored under a path, as that document's error reads. -/
  | inFile (path : String) (text : String)
  /-- A fault in free words. -/
  | stated (text : String)
  deriving DecidableEq, Repr

/-- The wording of a document fault. -/
def XmlFault.message : XmlFault → String
  | .unclosed name => "element '" ++ name ++ "' is never closed"
  | .secondRoot => "document has more than one root element"
  | .noRoot => "document has no root element"
  | .malformed what => what
  | .inFile path text => path ++ ": " ++ text
  | .stated text => text

/-! ## Causes -/

/-- What happened. -/
inductive Cause where
  -- values and bytes
  | notBinaryDigit (digit : Char) (text : String)
  | notHexDigit (digit : Char) (text : String)
  | notDecimalInteger (text : String) (fault : NumeralFault)
  | counterOverflow
  | badWidth (text : String) (fault : NumeralFault)
  | widthAbove (width limit : Int)
  | badOffset (text : String)
  | badIncrement (text : String)
  | incrementOverflow
  | badTimeFormat (pattern : String)
  | timeNotFormattable (pattern : String)
  -- layouts
  | unknownTag (name : String)
  | badFlag (name value : String)
  | unknownRepeatType (name : String)
  | badRepeatMax (text : String)
  | negativeRepeatMax
  | unboundedRepeat
  | stalledDocuments
  | stalledRecords
  | noDocumentForRecords
  | noDocumentForImport
  | unknownImportType (name : String)
  | forbiddenInWriter (tag : String)
  | importWithoutTarget
  | ruleWithoutFrom
  | ruleWithoutTransform
  | ruleSelectsDocument (selector : String)
  | circularImport (path : String)
  | siblingOfRoot
  /-- A place among the children of a node that is further than one behind the last. -/
  | placeBeyondEnd (place length : Nat)
  | lazyOutsideChunk (place : String)
  | wrongFeed (place : String)
  | strayLoopEnd (place : String)
  -- path queries
  | query (fault : QueryFault) (source : String)
  | notNodes (source : String)
  | pathOnValue
  | unionOnValue
  | arity (function : String) (least most given : Nat)
  | nodesExpected (function : String)
  | unknownFunction (name : String)
  -- character maps
  | mapWithoutTarget
  | mapWithoutSource
  | badPattern (what : String)
  | unknownTransformer (name : String)
  | unknownTransformerType (name : String)
  | noTextNamed (name : String)
  | untransformed (text : String) (position : Nat) (input : String)
  -- records, documents, counters and files
  | badRecord (text : String) (row line : Nat) (record : String)
  | xml (fault : XmlFault)
  | malformedCounters (what : String)
  | duplicateCounter (name : String)
  | duplicateDefaultCounter
  | unreadable (path : String) (fault : FileFault)
  | unreadableTemplate (path : String) (fault : FileFault)
  | uncreatable (path : String) (fault : FileFault)
  | unknownWriterType (name : String)
  | file (fault : FileFault)
  -- the rest
  /-- A computation was cut short by its allowance of steps. -/
  | exhausted
  /-- A failure of some kind in free words. -/
  | stated (kind : Kind) (text : String)
  deriving DecidableEq, Repr

namespace Cause

/-- The family of a cause. -/
def kind : Cause → Kind
  | notBinaryDigit .. | notHexDigit .. | notDecimalInteger .. | counterOverflow | badWidth ..
  | widthAbove .. | badOffset .. | badIncrement .. | incrementOverflow | badTimeFormat ..
  | timeNotFormattable .. => .encoding
  | unknownTag .. | badFlag .. | unknownRepeatType .. | badRepeatMax .. | noDocumentForRecords
  | noDocumentForImport | unknownImportType .. | forbiddenInWriter .. | importWithoutTarget
  | ruleWithoutFrom | ruleWithoutTransform | ruleSelectsDocument .. | circularImport ..
  | query .. | notNodes .. | pathOnValue | unionOnValue | arity .. | nodesExpected ..
  | unknownFunction .. | mapWithoutTarget | mapWithoutSource | badPattern .. => .format
  | negativeRepeatMax | unknownTransformer .. | unknownTransformerType .. | noTextNamed ..
  | malformedCounters .. | duplicateCounter .. | duplicateDefaultCounter | unreadable ..
  | unreadableTemplate .. | uncreatable .. | unknownWriterType .. => .inputData
  | unboundedRepeat | stalledDocuments | stalledRecords => .infiniteLoop
  | untransformed .. => .transform
  | badRecord .. => .badData
  | xml .. => .xml
  | file .. => .io
  | siblingOfRoot | placeBeyondEnd .. | lazyOutsideChunk .. | wrongFeed .. | strayLoopEnd ..
  | exhausted => .custom
  | stated k _ => k

/-- The wording of a cause, without its introduction and its site. -/
def message : Cause → String
  | notBinaryDigit d t => "'" ++ d.toString ++ "' is not a binary digit in " ++ quote t
  | notHexDigit d t => "'" ++ d.toString ++ "' is not a hex digit in " ++ quote t
  | notDecimalInteger t f => quote t ++ " is not a decimal integer: " ++ f.message
  | counterOverflow => "counter overflow"
  | badWidth t f => "byte width " ++ quote t ++ " is not an integer: " ++ f.message
  | widthAbove w l => "byte width " ++ toString w ++ " exceeds the limit of " ++ toString l
  | badOffset t => "offset " ++ quote t ++ " is not a non-negative integer"
  | badIncrement t => "auto-increment value " ++ quote t ++ " is not an integer"
  | incrementOverflow => "auto-increment overflow"
  | badTimeFormat p => "invalid time format " ++ quote p
  | timeNotFormattable p => "cannot format time with " ++ quote p
  | unknownTag n => "unknown tag '" ++ n ++ "'"
  | badFlag n v => n ++ " must be true or false, not " ++ quote v
  | unknownRepeatType n => "unknown repeat type '" ++ n ++ "'"
  | badRepeatMax t => "repeat max " ++ quote t ++ " is not an integer"
  | negativeRepeatMax => "repeat max cannot be negative"
  | unboundedRepeat => "a counted repeat needs max, xmax or fetch=\"true\""
  | stalledDocuments => "combined-xml repeat does not advance between iterations"
  | stalledRecords => "combined-record repeat does not advance between iterations"
  | noDocumentForRecords => "combined-record repeat outside any combined document"
  | noDocumentForImport => "combined import outside any combined document"
  | unknownImportType n => "unknown import type " ++ quote n
  | forbiddenInWriter t => "'" ++ t ++ "' is not allowed inside a writer"
  | importWithoutTarget => "import needs a target or xtarget attribute"
  | ruleWithoutFrom => "map needs a from attribute"
  | ruleWithoutTransform => "an expression map needs a transform attribute on its import"
  | ruleSelectsDocument s => "map from " ++ quote s ++ " selects a document node"
  | circularImport p => "circular import of " ++ p
  | siblingOfRoot => "cannot insert a sibling next to a root node"
  | placeBeyondEnd place length =>
    "insertion index (is " ++ toString place ++ ") should be <= len (is " ++ toString length ++ ")"
  | lazyOutsideChunk p => "lazy field outside any chunk: " ++ p
  | wrongFeed p => "repeat at " ++ p ++ " fed with the wrong kind of source"
  | strayLoopEnd p => "loop body " ++ p ++ " ended without an active repeat"
  | query f s => f.message ++ " in expression " ++ quote s
  | notNodes s => "expression " ++ quote s ++ " does not select nodes"
  | pathOnValue => "predicates and paths need a node set"
  | unionOnValue => "'|' needs node sets on both sides"
  | arity f least most given =>
      f ++ "() takes " ++ toString least ++ "..=" ++ toString most ++ " arguments, got "
        ++ toString given
  | nodesExpected f => f ++ "() expects a node set"
  | unknownFunction n => "unknown function " ++ n ++ "()"
  | mapWithoutTarget => "map needs a 'to' or 'to-file'"
  | mapWithoutSource => "map needs a 'from' or 'from-regex'"
  | badPattern w => "bad from-regex: " ++ w
  | unknownTransformer n => "no transformer named '" ++ n ++ "'"
  | unknownTransformerType n => "no transformer of type '" ++ n ++ "'"
  | noTextNamed n => "no text " ++ n
  | untransformed t _ _ => t
  | badRecord t _ _ _ => t
  | xml f => f.message
  | malformedCounters w => "malformed counter file: " ++ w
  | duplicateCounter n => "counter '" ++ n ++ "' is defined more than once"
  | duplicateDefaultCounter => "the unnamed counter is defined more than once"
  | unreadable p f => "cannot read " ++ p ++ ": " ++ f.message
  | unreadableTemplate p f => "cannot read template " ++ p ++ ": " ++ f.message
  | uncreatable p f => "cannot create " ++ p ++ ": " ++ f.message
  | unknownWriterType n => "unknown writer type '" ++ n ++ "'"
  | file f => f.message
  | exhausted => "gave up after the allowed number of steps"
  | stated _ t => t

end Cause

/-! ## Errors -/

/-- A failure: its cause and, once known, its place. -/
structure Error where
  /-- What happened. -/
  cause : Cause
  /-- The place in a layout, as `Tree.describe` names it, or another name of where it happened. -/
  site : Option String
  deriving DecidableEq, Repr

namespace Error

/-- A failure whose place is not known yet. -/
def of (cause : Cause) : Error := ⟨cause, none⟩

/-- A failure at a place. -/
def atSite (cause : Cause) (site : String) : Error := ⟨cause, some site⟩

instance : Coe Cause Error := ⟨of⟩

/-- The family of the cause. -/
def kind (e : Error) : Kind := e.cause.kind

/-- Attaches a site, unless there is one or the kind takes none. -/
def locate (e : Error) (site : String) : Error :=
  if e.kind.isLocatable && e.site.isNone then ⟨e.cause, some site⟩ else e

/-- The full text. -/
def text (e : Error) : String :=
  let message := e.cause.message
  let located := message ++ (match e.site with | some s => " (at " ++ s ++ ")" | none => "")
  match e.kind with
  | .format => "Format error: " ++ located
  | .inputData => "Input data error: " ++ located
  | .infiniteLoop => "Infinite loop: " ++ located
  | .encoding => "Encoding error: " ++ located
  | .transform =>
    let (position, input) := match e.cause with
      | .untransformed _ p i => (p, i)
      | _ => (0, "")
    "Transform error at position " ++ toString position ++ ": " ++ message ++ " (input: "
      ++ quote input ++ ")"
  | .badData =>
    let (row, line, record) := match e.cause with
      | .badRecord _ r l t => (r, l, t)
      | _ => (0, 0, "")
    "Bad record data at row " ++ toString row ++ " (line " ++ toString line ++ "): " ++ message
      ++ "\n" ++ record
  | .xml => "XML error: " ++ message
  | .io => "IO error: " ++ message
  | .custom => "Error: " ++ message

/-- Whether the records or files that were given are at fault. -/
def isInputData (e : Error) : Bool := e.kind == .inputData || e.kind == .badData

@[simp] theorem kind_locate (e : Error) (site : String) : (e.locate site).kind = e.kind := by
  unfold locate; split <;> rfl

@[simp] theorem cause_locate (e : Error) (site : String) : (e.locate site).cause = e.cause := by
  unfold locate; split <;> rfl

/-- The innermost site stays: attaching a second one changes nothing. -/
theorem locate_locate (e : Error) (s t : String) : (e.locate s).locate t = e.locate s := by
  by_cases h : (e.kind.isLocatable && e.site.isNone) = true
  · have h1 : e.locate s = ⟨e.cause, some s⟩ := by simp only [locate, h, if_true]
    rw [h1]; simp [locate]
  · have h1 : ∀ u, e.locate u = e := by intro u; simp only [locate, h]; rfl
    rw [h1, h1]

end Error

end Stencil
