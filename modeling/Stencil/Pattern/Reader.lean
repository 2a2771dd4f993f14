/-
  The written form of patterns.

  Most characters stand for themselves.  `.` stands for any character but a line feed, brackets for
  one character of a set, parentheses for groups, a bar for alternatives, `^` and `$` for the ends of
  the text; `*`, `+`, `?` and bounds in braces repeat what is before them, reluctantly if a question
  mark follows.  A backslash takes the meaning of a sign away, or gives one to a letter.  Flags in a
  group that starts with a question mark hold up to the end of the group around them.

  A pattern may not be nested too deeply, nor weigh too much.  Its *height* is how deeply it is nested:
  groups, repetitions, brackets and operations on sets are levels, and so is everything that has
  several parts.

  The reader takes an allowance of nested calls, which `Pattern.parse` computes from the length.
-/
import Stencil.CharSet.Property
import Stencil.Pattern.Weight
import Stencil.Text.Blank
import Stencil.Text.Integer

set_option autoImplicit false

namespace Stencil.Pattern

open Stencil.Text (isDigit digitsValue isBlank hexNumber isAlphabetic isAlphanumeric)

/-- The settings that flags change. -/
structure Flags where
  /-- Letter case does not matter. -/
  fold : Bool
  /-- The signs for the ends of the text also stand for the ends of lines. -/
  multiline : Bool
  /-- The point also stands for a line feed. -/
  dotAll : Bool
  /-- Repetitions are reluctant, and greedy if a question mark follows. -/
  swapGreed : Bool
  /-- Classes and letter case go beyond plain texts. -/
  unicode : Bool
  /-- Carriage returns end lines, too. -/
  crlf : Bool
  /-- Blanks and comments do not count. -/
  verbose : Bool
  deriving DecidableEq, Repr

/-- The flags at the start of a pattern. -/
def Flags.start : Flags := ⟨false, false, false, false, true, false, false⟩

/-- Sets or clears the flag of a letter. -/
def Flags.set? (f : Flags) (value : Bool) : Char → Option Flags
  | 'i' => some { f with fold := value }
  | 'm' => some { f with multiline := value }
  | 's' => some { f with dotAll := value }
  | 'U' => some { f with swapGreed := value }
  | 'u' => some { f with unicode := value }
  | 'R' => some { f with crlf := value }
  | 'x' => some { f with verbose := value }
  | _ => none

/-- How far the reader has come. -/
structure Reading where
  /-- The text that is left. -/
  rest : List Char
  /-- The flags at this place. -/
  flags : Flags
  /-- The number of groups that are remembered. -/
  groups : Nat
  /-- The names of groups. -/
  names : List String

/-- A step of the reader, which fails with a description of what is wrong. -/
abbrev Reader := StateT Reading (Except String)

namespace Reader

/-- The next character. -/
def peek : Reader (Option Char) := do return (← get).rest.head?

/-- The flags at this place. -/
def flags : Reader Flags := do return (← get).flags

/-- Drops characters. -/
def drop (n : Nat) : Reader Unit := modify fun s => { s with rest := s.rest.drop n }

/-- Takes the next character. -/
def next : Reader Char := do
  match (← get).rest with
  | c :: cs => modify fun s => { s with rest := cs }; return c
  | [] => throw "unexpected end of pattern"

/-- Takes a character if it comes next. -/
def eat (c : Char) : Reader Bool := do
  if (← peek) == some c then drop 1; return true else return false

/-- Takes some characters if they come next. -/
def eatAll (text : String) : Reader Bool := do
  if text.toList.isPrefixOf (← get).rest then drop text.length; return true else return false

/-- Drops blanks and comments. -/
def dropIgnored : Nat → List Char → List Char
  | 0, cs => cs
  | _, [] => []
  | n + 1, c :: cs =>
    if isBlank c then dropIgnored n cs
    else if c == '#' then dropIgnored n (cs.dropWhile (· != '\n'))
    else c :: cs

/-- Drops what does not count. -/
def skipIgnored : Reader Unit := do
  let s ← get
  if s.flags.verbose then set { s with rest := dropIgnored s.rest.length s.rest }

/-- Drops the next character and what does not count behind it. -/
def pass : Reader Unit := do
  drop 1
  skipIgnored

/-- Takes characters of a class, with what does not count between them. -/
def takeWhile (belongs : Char → Bool) : Nat → Reader (List Char)
  | 0 => return []
  | n + 1 => do
    match ← peek with
    | some c =>
      if belongs c then
        pass
        return c :: (← takeWhile belongs n)
      else return []
    | none => return []

/-- Takes a run of characters of a class. -/
def takeRun (belongs : Char → Bool) : Reader (List Char) := do takeWhile belongs (← get).rest.length

/-- Takes what stands in braces, the opening one being next. -/
def inBraces : Reader (List Char) := do
  pass
  let cs ← takeRun (· != '\x7d')
  if ← eat '\x7d' then return cs else throw "unclosed braces"

/-! ## Escapes -/

/-- What a sign, or a backslash and the signs behind it, mean. -/
inductive Escaped where
  /-- A character; `byte` if it is given as a byte. -/
  | char (c : Char) (byte : Bool)
  | set (a : CharSet)
  | edge (e : Edge)

/-- Whether a character is a hexadecimal digit. -/
def isHexDigit (c : Char) : Bool :=
  isDigit c || ('a' ≤ c && c ≤ 'f') || ('A' ≤ c && c ≤ 'F')

/-- The character of a hexadecimal number. -/
def charOf (digits : List Char) : Reader Char := do
  if digits.isEmpty || !digits.all isHexDigit then throw "invalid hexadecimal digit"
  let n := hexNumber digits
  if h : n.isValidChar then return Char.ofNatAux n h else throw "not a character"

/-- Takes so many hexadecimal digits. -/
def hexDigits : Nat → Reader (List Char)
  | 0 => return []
  | n + 1 => do
    match ← peek with
    | some c =>
      if isHexDigit c then
        pass
        return c :: (← hexDigits n)
      else throw "invalid hexadecimal digit"
    | none => throw "unexpected end of pattern"

/-- A character given by so many hexadecimal digits, or by any number of them in braces.  Two digits
    give a byte.  The letter before them is next. -/
def hexadecimal (width : Nat) : Reader Escaped := do
  pass
  if (← peek) == some '\x7b' then return .char (← charOf (← inBraces)) false
  else return .char (← charOf (← hexDigits width)) (width == 2)

/-- The set, or where `negated` all other characters.  Outside Unicode, only characters of plain
    texts can be meant. -/
def negatedIf (negated : Bool) (a : CharSet) : Reader CharSet := do
  if !negated then return a
  else if (← flags).unicode then return a.complement
  else throw "the set goes beyond plain texts"

/-- With each character of a set its case variants, if letter case does not matter. -/
def foldedIf (a : CharSet) : Reader CharSet := do
  let f ← flags
  if !f.fold then return a
  else if f.unicode then return a.folded
  else return a.foldedAscii

/-- The part of a text before a sign, and the part behind it. -/
def splitAt (sign : List Char) : List Char → Option (List Char × List Char)
  | [] => none
  | c :: cs =>
    if sign.isPrefixOf (c :: cs) then some ([], (c :: cs).drop sign.length)
    else (splitAt sign cs).map fun p => (c :: p.1, p.2)

/-- The set that a property in braces names, and whether all other characters are meant. -/
def namedProperty (name : List Char) : Option CharSet × Bool :=
  match splitAt ['!', '='] name with
  | some (p, v) => (CharSet.propertyValue? p v, true)
  | none =>
    match splitAt [':'] name with
    | some (p, v) => (CharSet.propertyValue? p v, false)
    | none =>
      match splitAt ['='] name with
      | some (p, v) => (CharSet.propertyValue? p v, false)
      | none => (CharSet.property? name, false)

/-- A set given by a property: a letter, or a name in braces.  The letter before it is next. -/
def property (negated : Bool) : Reader CharSet := do
  pass
  let (set, other) ← match ← peek with
    | some '\x7b' => pure (namedProperty (← inBraces))
    | some '\\' => throw "invalid property"
    | _ => pure (CharSet.property? [← next], false)
  if !(← flags).unicode then throw "properties go beyond plain texts"
  match set with
  | some a => negatedIf (negated != other) (← foldedIf a)
  | none => throw "unknown property"

/-- A set given by a letter: digits, white space or characters of words. -/
def letterSet (unicode : CharSet.Formula) (ascii : List (Nat × Nat)) (negated : Bool) :
    Reader Escaped := do
  drop 1
  let a := if (← flags).unicode then unicode.set else .ofRanges ascii
  return .set (← negatedIf negated a)

/-- The characters of plain texts that are white space. -/
def asciiBlank : List (Nat × Nat) := [(9, 13), (32, 32)]

/-- The digits of plain texts. -/
def asciiDigit : List (Nat × Nat) := [(0x30, 0x39)]

/-- The letters of plain texts. -/
def asciiLetter : List (Nat × Nat) := [(0x41, 0x5A), (0x61, 0x7A)]

/-- What words in plain texts are made of. -/
def asciiWord : List (Nat × Nat) := (0x5F, 0x5F) :: asciiDigit ++ asciiLetter

/-- A condition on words. -/
def wordEdge (kind : WordEdge) : Reader Escaped := do
  return .edge (.word kind (!(← flags).unicode))

/-- The kind of edge behind a `b`, whose name may stand in braces; other braces are bounds. -/
def namedWordEdge : Reader Escaped := do
  let start ← get
  let belongs (c : Char) : Bool := c.isAlpha || c == '-'
  if (← peek) != some '\x7b' then wordEdge .either
  else
    pass
    match ← peek with
    | none => throw "unclosed braces"
    | some c =>
      if !belongs c then
        set start
        wordEdge .either
      else
        let name ← takeRun belongs
        if !(← eat '\x7d') then throw "unclosed braces"
        match String.ofList name with
        | "start" => wordEdge .start
        | "end" => wordEdge .finish
        | "start-half" => wordEdge .startHalf
        | "end-half" => wordEdge .finishHalf
        | _ => throw "unknown kind of word boundary"

/-- What the signs behind a backslash mean. -/
def escape : Reader Escaped := do
  let some c ← peek | throw "unexpected end of pattern"
  match c with
  | 'd' => letterSet .digit asciiDigit false
  | 'D' => letterSet .digit asciiDigit true
  | 's' => letterSet .whiteSpace asciiBlank false
  | 'S' => letterSet .whiteSpace asciiBlank true
  | 'w' => letterSet .word asciiWord false
  | 'W' => letterSet .word asciiWord true
  | 'p' => return .set (← property false)
  | 'P' => return .set (← property true)
  | 'x' => hexadecimal 2
  | 'u' => hexadecimal 4
  | 'U' => hexadecimal 8
  | _ =>
    drop 1
    match c with
    | 'A' => return .edge .textStart
    | 'z' => return .edge .textEnd
    | 'b' => namedWordEdge
    | 'B' => wordEdge .neither
    | '<' => wordEdge .start
    | '>' => wordEdge .finish
    | 'a' => return .char '\x07' false
    | 'f' => return .char '\x0c' false
    | 't' => return .char '\t' false
    | 'n' => return .char '\n' false
    | 'r' => return .char '\r' false
    | 'v' => return .char '\x0b' false
    | _ =>
      if c.toNat < 128 && !c.isAlphanum then return .char c false
      else throw "unrecognized escape sequence"

/-! ## Sets in brackets -/

/-- A set and its height. -/
structure Part where
  /-- The set. -/
  set : CharSet
  /-- How deeply it is nested. -/
  height : Nat

/-- The sets of a name between colons. -/
def namedSet? : String → Option (List (Nat × Nat))
  | "alnum" => some (asciiDigit ++ asciiLetter)
  | "alpha" => some asciiLetter
  | "ascii" => some [(0, 0x7F)]
  | "blank" => some [(9, 9), (32, 32)]
  | "cntrl" => some [(0, 0x1F), (0x7F, 0x7F)]
  | "digit" => some asciiDigit
  | "graph" => some [(0x21, 0x7E)]
  | "lower" => some [(0x61, 0x7A)]
  | "print" => some [(0x20, 0x7E)]
  | "punct" => some [(0x21, 0x2F), (0x3A, 0x40), (0x5B, 0x60), (0x7B, 0x7E)]
  | "space" => some asciiBlank
  | "upper" => some [(0x41, 0x5A)]
  | "word" => some asciiWord
  | "xdigit" => some [(0x30, 0x39), (0x41, 0x46), (0x61, 0x66)]
  | _ => none

/-- A named set between brackets and colons, if one comes next. -/
def named : Reader (Option CharSet) := do
  let s ← get
  match s.rest with
  | '[' :: ':' :: cs =>
    let (negated, cs) := match cs with
      | '^' :: cs => (true, cs)
      | cs => (false, cs)
    let name := cs.takeWhile (· != ':')
    match cs.drop name.length, namedSet? (String.ofList name) with
    | ':' :: ']' :: rest, some a =>
      set { s with rest }
      return some (← negatedIf negated (← foldedIf (.ofRanges a)))
    | _, _ => return none
  | _ => return none

/-- One character or set of a bracket. -/
def setItem : Reader Escaped := do
  let c ← next
  if c = '\\' then escape else return .char c false

/-- The code of a character in a bracket.  Outside Unicode, it must be one of plain texts. -/
def codeOf (c : Char) : Reader Nat := do
  if (← flags).unicode || c.toNat < 128 then return c.toNat
  else throw "the set goes beyond plain texts"

/-- The character behind the next one that decides on what a hyphen means.  Where blanks do not count,
    neither does the sign that starts a comment. -/
def behindHyphen (verbose : Bool) (cs : List Char) : Option Char :=
  if !verbose then cs.head?
  else
    match cs.dropWhile isBlank with
    | '#' :: behind => (behind.dropWhile isBlank).head?
    | c :: _ => some c
    | [] => cs.head?

/-- A range, a character or a set of a bracket. -/
def setRange : Reader CharSet := do
  let low ← setItem
  skipIgnored
  let s ← get
  let isRange := match s.rest with
    | '-' :: cs =>
      let behind := behindHyphen s.flags.verbose cs
      behind != some ']' && behind != some '-'
    | _ => false
  if isRange then
    pass
    match low, ← setItem with
    | .char a _, .char b _ =>
      if a ≤ b then return .range (← codeOf a) (← codeOf b) else throw "invalid range"
    | _, _ => throw "invalid range boundary"
  else
    match low with
    | .char a _ =>
      let n ← codeOf a
      return .range n n
    | .set a => return a
    | .edge _ => throw "invalid escape sequence in a set"

/-- The operations between the parts of a bracket. -/
def setOperation? : List Char → Option (CharSet → CharSet → CharSet)
  | '&' :: '&' :: _ => some .inter
  | '-' :: '-' :: _ => some .difference
  | '~' :: '~' :: _ => some .symmetricDifference
  | _ => none

/-- The union of parts, the last one first. -/
def unite (parts : List Part) : Part :=
  let set := parts.foldl (fun a p => a.union p.set) .empty
  let height := parts.foldl (fun n p => max n p.height) 0
  ⟨set, if parts.length ≤ 1 then height else height + 1⟩

/-- An operation that waits for its right side. -/
structure Pending where
  /-- The operation. -/
  operation : CharSet → CharSet → CharSet
  /-- Its left side. -/
  left : Part

/-- Carries out an operation that waits.  Its sides are folded before. -/
def complete (pending : Option Pending) (right : Part) : Reader Part := do
  match pending with
  | none => return right
  | some p =>
    let a ← foldedIf p.left.set
    let b ← foldedIf right.set
    return ⟨p.operation a b, max p.left.height right.height + 1⟩

mutual

/-- A set in brackets, the opening one being next. -/
def bracket : Nat → Reader Part
  | 0 => throw "pattern is nested too deeply"
  | n + 1 => do
    pass
    let negated := (← peek) == some '^'
    if negated then pass
    let hyphens ← takeRun (· == '-')
    let start : List Part := hyphens.map fun c => ⟨.single c, 0⟩
    let start ← if start.isEmpty && (← peek) == some ']' then
        pass
        pure [⟨.single ']', 0⟩]
      else pure start
    let p ← bracketRest n none start
    return ⟨← negatedIf negated (← foldedIf p.set), p.height + 1⟩

/-- The rest of a set in brackets, behind an operation that waits and some parts, the last one first. -/
def bracketRest : Nat → Option Pending → List Part → Reader Part
  | 0, _, _ => throw "pattern is nested too deeply"
  | n + 1, pending, parts => do
    skipIgnored
    match (← get).rest with
    | [] => throw "unclosed set"
    | ']' :: _ =>
      drop 1
      complete pending (unite parts)
    | '[' :: _ =>
      match ← named with
      | some a => bracketRest n pending (⟨a, 0⟩ :: parts)
      | none =>
        let p ← bracket n
        bracketRest n pending (p :: parts)
    | cs =>
      match setOperation? cs with
      | some operation =>
        drop 2
        let left ← complete pending (unite parts)
        bracketRest n (some ⟨operation, left⟩) []
      | none =>
        let a ← setRange
        bracketRest n pending (⟨a, 0⟩ :: parts)

end

/-! ## Patterns -/

/-- A pattern and its height. -/
structure Piece where
  /-- The pattern. -/
  pattern : Pattern
  /-- How deeply it is nested. -/
  height : Nat
  /-- Whether it can be repeated.  Flags alone cannot. -/
  repeats : Bool

/-- The pattern of one character. -/
def literal (c : Char) (byte : Bool) : Reader Pattern := do
  let f ← flags
  if !f.unicode && byte && 128 ≤ c.toNat then throw "not a character of plain texts"
  else if f.unicode || c.toNat < 128 then return ofSet (← foldedIf (.single c))
  else return text [c]

/-- The pattern of any character. -/
def point : Reader Pattern := do
  let f ← flags
  if !f.unicode then throw "the point goes beyond plain texts"
  else if f.dotAll then return ofSet .all
  else
    return ofSet (CharSet.ofRanges (if f.crlf then [(10, 10), (13, 13)] else [(10, 10)])).complement

/-- The place that `^` or `$` stands for. -/
def lineEdge (text line anyLine : Edge) : Reader Pattern := do
  let f ← flags
  return edge (if !f.multiline then text else if f.crlf then anyLine else line)

/-- Digits of a bound, if there are any. -/
def bound? : Reader (Option Nat) := do
  let dropBlanks : Reader Unit := modify fun s => { s with rest := s.rest.dropWhile isBlank }
  dropBlanks
  let digits ← takeRun isDigit
  dropBlanks
  if digits.isEmpty then return none
  else if 4294967296 ≤ digitsValue digits then throw "the repetition bound is too large"
  else return some (digitsValue digits)

/-- The bounds in braces, the opening one being next. -/
def bounds : Reader (Nat × Option Nat) := do
  pass
  let least ← bound?
  let most ←
    if (← peek) == some ',' then
      pass
      if (← peek) == some '\x7d' then pure none
      else
        match ← bound? with
        | some most => pure (some most)
        | none => throw "empty repetition bound"
    else pure least
  match least with
  | none => throw "empty repetition bound"
  | some least =>
    if (← peek) != some '\x7d' then throw "unclosed repetition bound"
    pass
    if most.any (· < least) then throw "invalid repetition bounds"
    return (least, most)

/-- Repeats the last of some pieces, as the sign that comes next says. -/
def repeatLast (sign : Char) (pieces : List Piece) : Reader (List Piece) := do
  match pieces with
  | [] => throw "repetition without a pattern"
  | p :: pieces =>
    if !p.repeats then throw "repetition without a pattern"
    let (least, most) ← match sign with
      | '*' => drop 1; pure (0, none)
      | '+' => drop 1; pure (1, none)
      | '?' => drop 1; pure (0, some 1)
      | _ => bounds
    let reluctant ← eat '?'
    let greedy := reluctant == (← flags).swapGreed
    return ⟨repeated p.pattern least most greedy, p.height + 1, true⟩ :: pieces

/-- Flags up to the colon or the parenthesis behind them, which is taken and given back.  `given` are the
    letters before, `hyphen` says whether a hyphen was among them and `open` whether it was the last. -/
def readFlags : Nat → List Char → Bool → Bool → Flags → Reader (Flags × Char)
  | 0, _, _, _, _ => throw "unclosed flags"
  | n + 1, given, hyphen, dangling, f => do
    let c ← next
    if c == ':' || c == ')' then
      if dangling then throw "flags expected"
      else if c == ')' && given.isEmpty then throw "repetition without a pattern"
      else return (f, c)
    else if c == '-' then
      if hyphen then throw "repeated negation of flags" else readFlags n given true true f
    else
      match f.set? (!hyphen) c with
      | some f =>
        if given.contains c then throw "repeated flag" else readFlags n (c :: given) hyphen false f
      | none => throw "unknown flag"

/-- Takes a name of a group and the sign that closes it. -/
def groupName : Reader Unit := do
  let s ← get
  let name := s.rest.takeWhile (· != '>')
  let starts (c : Char) : Bool := c == '_' || isAlphabetic c
  let goesOn (c : Char) : Bool :=
    c == '_' || c == '.' || c == '[' || c == ']' || isAlphanumeric c
  match name with
  | [] => throw "empty group name"
  | c :: cs =>
    if !starts c || !cs.all goesOn then throw "invalid group name"
    if s.names.contains (String.ofList name) then throw "duplicate group name"
    set { s with rest := s.rest.drop name.length, names := String.ofList name :: s.names }
    if !(← eat '>') then throw "unclosed group name"

/-- Whether a question mark in front of the text would make it a condition on the text around. -/
def startsLookAround (cs : List Char) : Bool :=
  ["?=", "?!", "?<=", "?<!"].any fun w => w.toList.isPrefixOf cs

/-- Pieces one behind another, the last one first. -/
def inSequence (pieces : List Piece) : Piece :=
  match pieces with
  | [] => ⟨empty, 0, false⟩
  | [p] => p
  | _ =>
    ⟨concat (pieces.reverse.map Piece.pattern), pieces.foldl (fun n p => max n p.height) 0 + 1, true⟩

/-- A choice between pieces, the last one first. -/
def toChoose (pieces : List Piece) : Piece :=
  match pieces with
  | [p] => p
  | _ =>
    ⟨alternatives (pieces.reverse.map Piece.pattern),
      pieces.foldl (fun n p => max n p.height) 0 + 1, true⟩

mutual

/-- Alternatives up to a closing parenthesis or the end, behind some branches and, of the last branch,
    some pieces; the last ones first. -/
def choice : Nat → List Piece → List Piece → Reader Piece
  | 0, _, _ => throw "pattern is nested too deeply"
  | n + 1, branches, pieces => do
    skipIgnored
    match ← peek with
    | none | some ')' => return toChoose (inSequence pieces :: branches)
    | some '|' =>
      drop 1
      choice n (inSequence pieces :: branches) []
    | some c =>
      if c == '*' || c == '+' || c == '?' || c == '\x7b' then
        let pieces ← repeatLast c pieces
        choice n branches pieces
      else
        let p ← piece n
        choice n branches (p :: pieces)

/-- A piece that is no repetition. -/
def piece : Nat → Reader Piece
  | 0 => throw "pattern is nested too deeply"
  | n + 1 => do
    let simple (p : Pattern) : Piece := ⟨p, 0, true⟩
    match ← peek with
    | some '(' => group n
    | some '[' =>
      let p ← bracket n
      return ⟨ofSet p.set, p.height, true⟩
    | _ =>
      let c ← next
      match c with
      | '.' => return simple (← point)
      | '^' => return simple (← lineEdge .textStart .lineStart .anyLineStart)
      | '$' => return simple (← lineEdge .textEnd .lineEnd .anyLineEnd)
      | '\\' =>
        match ← escape with
        | .char c byte => return simple (← literal c byte)
        | .set a => return simple (ofSet a)
        | .edge e => return simple (edge e)
      | _ => return simple (← literal c false)

/-- A group or flags, the opening parenthesis being next. -/
def group : Nat → Reader Piece
  | 0 => throw "pattern is nested too deeply"
  | n + 1 => do
    pass
    let outer ← flags
    if startsLookAround (← get).rest then throw "look-around is not supported"
    let isNamed ← (do if ← eatAll "?P<" then return true else eatAll "?<")
    if isNamed then groupName
    let remembered ← (do if isNamed then return true else return !(← eat '?'))
    let inner ← if remembered then pure (some outer) else (do
      let (f, c) ← readFlags (← get).rest.length [] false false outer
      modify fun s => { s with flags := f }
      return if c == ':' then some f else none)
    if inner.isNone then return ⟨empty, 0, false⟩
    else
      let index := (← get).groups + 1
      if remembered then modify fun s => { s with groups := index }
      let p ← choice n [] []
      if !(← eat ')') then throw "unclosed group"
      modify fun s => { s with flags := outer }
      return ⟨if remembered then .group index p.pattern else p.pattern, p.height + 1, true⟩

end

end Reader

/-- An allowance that is enough for a pattern of so many characters. -/
def allowance (length : Nat) : Nat := 4 * length + 16

/-- The largest height. -/
def heightLimit : Nat := 250

/-- Reads a pattern. -/
def parse (text : String) : Except String Pattern :=
  match (Reader.choice (allowance text.length) [] []).run ⟨text.toList, .start, 0, []⟩ with
  | .error what => .error what
  | .ok (p, s) =>
    if !s.rest.isEmpty then .error "unopened group"
    else if heightLimit < p.height then .error "pattern is nested too deeply"
    else if !p.pattern.fits then .error "pattern is too large"
    else .ok p.pattern

end Stencil.Pattern
