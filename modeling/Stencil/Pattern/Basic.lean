/-
  Patterns.

  A pattern describes texts.  Patterns are put together by `ofSet`, `concat`, `alternatives` and
  `repeated`, which keep them in a simple form:

    * a sequence has no empty part, no part that is a sequence, and no two texts in a row;
    * an alternative has no part that is an alternative; where each part is a single character or a
      set, they are one set, and what all parts begin with stands in front;
    * what can only match the empty text is repeated once at most.

  The form matters, because of several ways to match, the first one counts: taking a common beginning
  out of alternatives changes the order in which they are tried.
-/
import Stencil.CharSet

set_option autoImplicit false

namespace Stencil

/-- Which sides of a place belong to a word. -/
inductive WordEdge where
  /-- One side only. -/
  | either
  /-- Both sides or none. -/
  | neither
  /-- Only what follows. -/
  | start
  /-- Only what is before. -/
  | finish
  /-- Not what is before. -/
  | startHalf
  /-- Not what follows. -/
  | finishHalf
  deriving DecidableEq, Repr

/-- Whether the condition on words holds if the character before a place is part of a word, and if the
    one behind it is. -/
def WordEdge.holds (before behind : Bool) : WordEdge → Bool
  | .either => before != behind
  | .neither => before == behind
  | .start => !before && behind
  | .finish => before && !behind
  | .startHalf => !before
  | .finishHalf => !behind

/-- Conditions on a place in a text. -/
inductive Edge where
  | textStart
  | textEnd
  /-- Line feeds end lines. -/
  | lineStart
  | lineEnd
  /-- Line feeds, carriage returns and both together end lines. -/
  | anyLineStart
  | anyLineEnd
  /-- Words are made of letters, marks and digits, or of plain ones only. -/
  | word (edge : WordEdge) (ascii : Bool)
  deriving DecidableEq, Repr

/-- A description of texts. -/
inductive Pattern where
  /-- The empty text. -/
  | empty
  /-- A text of at least one character. -/
  | text (cs : List Char)
  /-- One character of a set. -/
  | one (set : CharSet)
  /-- The empty text at certain places. -/
  | edge (e : Edge)
  /-- What a pattern matches, which is remembered under a number. -/
  | group (index : Nat) (p : Pattern)
  /-- One pattern behind another. -/
  | sequence (p q : Pattern)
  /-- Either of two patterns. -/
  | either (p q : Pattern)
  /-- Repetitions, at least `least` and at most `most`. -/
  | repetition (p : Pattern) (least : Nat) (most : Option Nat) (greedy : Bool)
  deriving DecidableEq, Repr, Inhabited

namespace Pattern

/-! ## What a pattern can match -/

/-- Whether a pattern matches the empty text and nothing else. -/
def onlyEmpty : Pattern → Bool
  | empty | edge _ => true
  | text _ | one _ => false
  | group _ p | repetition p _ _ _ => p.onlyEmpty
  | sequence p q | either p q => p.onlyEmpty && q.onlyEmpty

/-- Whether a pattern does not match the empty text. -/
def neverEmpty : Pattern → Bool
  | empty | edge _ => false
  | text _ | one _ => true
  | group _ p => p.neverEmpty
  | sequence p q => p.neverEmpty || q.neverEmpty
  | either p q => p.neverEmpty && q.neverEmpty
  | repetition p least _ _ => least != 0 && p.neverEmpty

/-- Whether a pattern matches at the start of the text only. -/
def atStart : Pattern → Bool
  | edge e => e == .textStart
  | group _ p => p.atStart
  | sequence p _ => p.atStart
  | either p q => p.atStart && q.atStart
  | _ => false

/-! ## Sets -/

/-- The pattern of one character of a set. -/
def ofSet (set : CharSet) : Pattern :=
  match set.single? with
  | some c => text [c]
  | none => one set

/-- The set of a pattern that is given by one. -/
def set? : Pattern → Option CharSet
  | one set => some set
  | _ => none

/-- The character of a text that has only one. -/
def char? : Pattern → Option Char
  | text [c] => some c
  | _ => none

/-! ## Sequences -/

/-- The parts of a sequence. -/
def parts : Pattern → List Pattern
  | empty => []
  | sequence p q => p :: q.parts
  | p => [p]

/-- Joins texts that stand one behind another. -/
def joinTexts : List Pattern → List Pattern
  | text a :: ps =>
    match joinTexts ps with
    | text b :: qs => text (a ++ b) :: qs
    | qs => text a :: qs
  | p :: ps => p :: joinTexts ps
  | [] => []

/-- The sequence of some parts, none of which is empty or a sequence. -/
def ofParts : List Pattern → Pattern
  | [] => empty
  | [p] => p
  | p :: ps => sequence p (ofParts ps)

/-- Patterns one behind another. -/
def concat (ps : List Pattern) : Pattern := ofParts (joinTexts (ps.flatMap parts))

/-! ## Alternatives -/

/-- The parts of an alternative. -/
def branches : Pattern → List Pattern
  | either p q => p :: q.branches
  | p => [p]

/-- The alternative of some parts, none of which is an alternative. -/
def ofBranches : List Pattern → Pattern
  | [] => one .empty
  | [p] => p
  | p :: ps => either p (ofBranches ps)

/-- The alternative of some parts; one set if they are single characters, or if they are sets. -/
def merged (ps : List Pattern) : Pattern :=
  let ps := ps.flatMap branches
  match ps with
  | [p] => p
  | _ =>
    match ps.mapM char? with
    | some cs => ofSet (.ofCodes (cs.map Char.toNat))
    | none =>
      match ps.mapM set? with
      | some sets => ofSet (sets.foldl CharSet.union .empty)
      | none => ofBranches ps

/-- What two lists begin with. -/
def commonPrefix : List Pattern → List Pattern → List Pattern
  | p :: ps, q :: qs => if p = q then p :: commonPrefix ps qs else []
  | _, _ => []

/-- What all of some sequences begin with, if each has two parts or more. -/
def sharedStart (ps : List (List Pattern)) : List Pattern :=
  if ps.all fun p => 2 ≤ p.length then
    match ps with
    | [] => []
    | p :: ps => ps.foldl commonPrefix p
  else []

/-- Patterns to choose from, the first one first. -/
def alternatives (ps : List Pattern) : Pattern :=
  match merged ps with
  | either p q =>
    let sequences := (either p q).branches.map parts
    let start := sharedStart sequences
    if start.isEmpty then either p q
    else
      concat (start ++ [merged (sequences.map fun s => concat (s.drop start.length))])
  | p => p

/-! ## Repetitions -/

/-- A pattern so many times. -/
def repeated (p : Pattern) (least : Nat) (most : Option Nat) (greedy : Bool) : Pattern :=
  let (least, most) : Nat × Option Nat :=
    if p.onlyEmpty then (min least 1, some (min (most.getD 1) 1)) else (least, most)
  if least = 0 ∧ most = some 0 then empty
  else if least = 1 ∧ most = some 1 then p
  else repetition p least most greedy

end Pattern

end Stencil
