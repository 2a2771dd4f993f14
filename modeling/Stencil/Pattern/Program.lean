/-
  Programs, as which patterns are matched.

  A program is a list of steps, which are numbered from 0.  Following it from its first step to `found`
  while reading a text is one way to match the pattern.  At a fork there are two ways to go on, the
  preferred one first.

  What is repeated and could match nothing is entered by a fork of its own and followed by another, so
  that repeating it is preferred to leaving it behind *every* repetition, the first one included.
-/
import Stencil.Pattern.Basic

set_option autoImplicit false

namespace Stencil.Pattern

/-- A step of a program.  Where nothing else is said, the next step follows. -/
inductive Step where
  /-- Reads a character of a set. -/
  | read (set : CharSet)
  /-- Goes on if the condition holds. -/
  | check (e : Edge)
  /-- Remembers the place under a number. -/
  | mark (slot : Nat)
  /-- Goes on with either of two steps, the first one preferred. -/
  | fork (preferred other : Nat)
  /-- Goes on with a step. -/
  | jump (target : Nat)
  /-- The pattern has matched. -/
  | found
  deriving Repr, Inhabited

/-- The numbers for the start and the end of what a group matches. -/
def startSlot (index : Nat) : Nat := 2 * index

@[inherit_doc startSlot]
def endSlot (index : Nat) : Nat := 2 * index + 1

/-- The number of steps for a pattern. -/
def size : Pattern → Nat
  | empty => 0
  | text cs => cs.length
  | one _ => 1
  | edge _ => 1
  | group _ p => p.size + 2
  | sequence p q => p.size + q.size
  | either p q => p.size + q.size + 2
  | repetition p least none _ => if least = 0 then p.size + 2 else least * p.size + 1
  | repetition p least (some most) _ => least * p.size + (most - least) * (p.size + 1)

/-- Does something so many times. -/
def times {α : Type} (f : α → α) : Nat → α → α
  | 0, a => a
  | n + 1, a => times f n (f a)

/-- A fork between going on inside a repetition and leaving it. -/
def loopFork (greedy : Bool) (inside outside : Nat) : Step :=
  if greedy then .fork inside outside else .fork outside inside

/-- Adds the steps for a pattern to those before it. -/
def emit : Pattern → Array Step → Array Step
  | empty, steps => steps
  | text cs, steps => cs.foldl (fun steps c => steps.push (.read (.single c))) steps
  | one set, steps => steps.push (.read set)
  | edge e, steps => steps.push (.check e)
  | group index p, steps =>
    (emit p (steps.push (.mark (startSlot index)))).push (.mark (endSlot index))
  | sequence p q, steps => emit q (emit p steps)
  | either p q, steps =>
    let behind := steps.size + p.size + q.size + 2
    let steps := steps.push (.fork (steps.size + 1) (steps.size + p.size + 2))
    emit q ((emit p steps).push (.jump behind))
  | repetition p least none greedy, steps =>
    if least = 0 then
      let start := steps.size
      let behind := start + p.size + 2
      let steps := emit p (steps.push (loopFork greedy (start + 1) behind))
      if p.neverEmpty then steps.push (.jump start)
      else steps.push (loopFork greedy (start + 1) behind)
    else
      let last := steps.size + (least - 1) * p.size
      (times (emit p) least steps).push (loopFork greedy last (last + p.size + 1))
  | repetition p least (some most) greedy, steps =>
    let behind := steps.size + least * p.size + (most - least) * (p.size + 1)
    let optional (steps : Array Step) : Array Step :=
      emit p (steps.push (loopFork greedy (steps.size + 1) behind))
    times optional (most - least) (times (emit p) least steps)

/-- The steps for a pattern, and where a match may begin. -/
structure Program where
  /-- The steps. -/
  steps : Array Step
  /-- Whether matches begin at the start of the text only. -/
  atStart : Bool
  deriving Repr, Inhabited

/-- The program for a pattern.  The whole match is remembered as the group 0. -/
def program (p : Pattern) : Program :=
  ⟨(emit (.group 0 p) #[]).push .found, p.atStart⟩

end Stencil.Pattern
