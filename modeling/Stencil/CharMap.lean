/-
  Character maps.

  A character map replaces a text piece by piece, from the left.  At each place the longest
  *literal* that comes next is replaced; where none does, the first *pattern* that matches something
  there.  What replaces them is a text, or the contents of a file, whose name is given; in both, `{n}`
  stands for what the group `n` of the pattern has matched, and doubled braces for single ones.  A
  place where nothing matches is a failure.

  The contents of files are kept in the map, so each file is read once.
-/
import Stencil.Action
import Stencil.Pattern.Match
import Stencil.Pattern.Reader
import Stencil.Tree.Element

set_option autoImplicit false

namespace Stencil

open Stencil.Text (isDigit digitsValue)

/-- What replaces a piece of text. -/
inductive Replacement where
  /-- A text with references to groups. -/
  | text (template : String)
  /-- The contents of a file, whose name has references to groups. -/
  | file (template : String)
  deriving DecidableEq, Repr

/-- The rules of a character map. -/
structure Rules where
  /-- The replacements of literals, grouped by the length of the literals, the longest first. -/
  literals : List (Nat × Entries Replacement)
  /-- The replacements of what patterns match, in the order of the document. -/
  patterns : List (Pattern.Program × Replacement)
  deriving Repr

/-- A character map: its rules, and the files that have been read for it. -/
structure CharMap where
  /-- The rules. -/
  rules : Rules
  /-- The contents of the files that have been read. -/
  texts : Entries String
  deriving Repr

namespace Rules

/-- No rules. -/
def none : Rules := ⟨[], []⟩

/-- Adds the replacement of a literal to the group of its length.  The groups stay sorted. -/
def addLiteral (literal : String) (r : Replacement) :
    List (Nat × Entries Replacement) → List (Nat × Entries Replacement)
  | [] => [(literal.length, [(literal, r)])]
  | (n, es) :: groups =>
    if literal.length = n then (n, es.insert literal r) :: groups
    else if n < literal.length then (literal.length, [(literal, r)]) :: (n, es) :: groups
    else (n, es) :: addLiteral literal r groups

/-- Adds the rule that an element declares.  `site` is the place of the element. -/
def add (rules : Rules) (site : String) (e : Element) : Except Error Rules :=
  let target : Option Replacement :=
    ((e.attr? "to").map Replacement.text).or ((e.attr? "to-file").map Replacement.file)
  match target with
  | .none => .error (.atSite .mapWithoutTarget site)
  | some r =>
    match e.attr? "from", e.attr? "from-regex" with
    | some literal, _ => .ok { rules with literals := addLiteral literal r rules.literals }
    | .none, some text =>
      match Pattern.parse ("^(?:" ++ text ++ ")") with
      | .error what => .error (.atSite (.badPattern what) site)
      | .ok p => .ok { rules with patterns := rules.patterns ++ [(p.program, r)] }
    | .none, .none => .error (.atSite .mapWithoutSource site)

/-- The way from a document to one of its rules. -/
def siteOf (map rule : Element) : String :=
  describeStep map.name map.attrs ++ describeStep rule.name rule.attrs

/-- The rules that a document declares. -/
def ofElement (map : Element) : Except Error Rules :=
  (map.children.filter fun e => e.name == "map").foldlM (fun rules e => rules.add (siteOf map e) e)
    none

/-- The replacement of the first literal that comes next, in the order of the groups, with its length. -/
def literalIn (cs : List Char) : List (Nat × Entries Replacement) → Option (Nat × Replacement)
  | [] => Option.none
  | (n, es) :: groups =>
    let next := cs.take n
    if next.length = n then
      match es.get? (String.ofList next) with
      | some r => some (n, r)
      | Option.none => literalIn cs groups
    else literalIn cs groups

/-- The replacement of the longest literal that comes next, with its length. -/
def literal? (rules : Rules) (cs : List Char) : Option (Nat × Replacement) :=
  literalIn cs rules.literals

/-- The replacement of the first of some patterns that matches something, with the match. -/
def patternIn (cs : List Char) :
    List (Pattern.Program × Replacement) → Option (Pattern.Found × Replacement)
  | [] => Option.none
  | (p, r) :: ps =>
    match p.find? cs with
    | some f => if 0 < f.consumed then some (f, r) else patternIn cs ps
    | Option.none => patternIn cs ps

/-- The replacement of the first pattern that matches something, with the match. -/
def pattern? (rules : Rules) (cs : List Char) : Option (Pattern.Found × Replacement) :=
  patternIn cs rules.patterns

end Rules

/-! ## References to groups -/

/-- Replaces references to groups and doubled braces.  A reference to a group that has matched nothing
    is dropped; other braces stand for themselves. -/
def expand (group? : Nat → Option String) (bound : Nat) (cs : List Char) : List Char :=
  match bound, cs with
  | 0, _ => []
  | _, [] => []
  | n + 1, '\x7b' :: '\x7b' :: rest => '\x7b' :: expand group? n rest
  | n + 1, '\x7d' :: '\x7d' :: rest => '\x7d' :: expand group? n rest
  | n + 1, '\x7b' :: rest =>
    let digits := rest.takeWhile isDigit
    match digits, rest.drop digits.length with
    | _ :: _, '\x7d' :: behind =>
      ((group? (digitsValue digits)).getD "").toList ++ expand group? n behind
    | _, behind => '\x7b' :: digits ++ expand group? n behind
  | n + 1, c :: rest => c :: expand group? n rest

/-- The text of a template for the groups of a match. -/
def substitute (template : String) (group? : Nat → Option String) : String :=
  String.ofList (expand group? template.length template.toList)

namespace CharMap

/-- The map with some rules, for which no file has been read yet. -/
def ofRules (rules : Rules) : CharMap := ⟨rules, []⟩

/-- The text that replaces a piece.  `read` gives the contents of a file. -/
def replace (read : String → Except Error String) (r : Replacement)
    (group? : Nat → Option String) : Action CharMap String := do
  match r with
  | .text template => return substitute template group?
  | .file template =>
    let name := substitute template group?
    match (← get).texts.get? name with
    | some text => return text
    | none =>
      let text ← Action.ofExcept (read name)
      modify fun m => { m with texts := m.texts.insert name text }
      return text

/-- Replaces what comes next: how many characters are replaced, and by what. -/
def step (read : String → Except Error String) (cs : List Char) :
    Action CharMap (Option (Nat × String)) := do
  let rules := (← get).rules
  match rules.literal? cs with
  | some (n, r) => return some (n, ← replace read r fun _ => none)
  | none =>
    match rules.pattern? cs with
    | some (f, r) => return some (f.consumed, ← replace read r f.group?)
    | none => return none

/-- What replaces the pieces of a text from a place on, in at most so many steps.  `position` is the
    number of characters before the place. -/
def piecesFrom (read : String → Except Error String) (input : String) :
    Nat → Nat → List Char → Action CharMap (List String)
  | _, _, [] => return []
  | 0, _, _ :: _ => .fail .exhausted
  | fuel + 1, position, c :: cs => do
    match ← step read (c :: cs) with
    | some (n, piece) =>
      return piece :: (← piecesFrom read input fuel (position + n) ((c :: cs).drop n))
    | none => .fail (.untransformed "no rule matches" position input)

/-- Replaces a text.  Steps that replace something are enough, as many as there are characters. -/
def transform (read : String → Except Error String) (input : String) : Action CharMap String :=
  return String.join (← piecesFrom read input input.length 0 input.toList)

end CharMap

end Stencil
