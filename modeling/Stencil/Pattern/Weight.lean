/-
  How much a pattern weighs.

  A pattern is refused if it is too large.  Its weight is the space, in bytes, that a machine for it takes
  which reads texts byte by byte in UTF-8: 32 for each state, 8 for each range of bytes where a state
  has several, and 4 for each way out of a fork.  There are two such machines, one that reads forwards
  and one that reads backwards.

  Forwards, the bytes of the characters in a set are read by states that are shared where they lead to
  the same ends; backwards, by states that are shared where they have the same beginnings.
-/
import Stencil.Pattern.Basic

set_option autoImplicit false

namespace Stencil

namespace CharSet

/-! ## The bytes of a set -/

/-- A range of bytes. -/
abbrev ByteRange := Nat × Nat

/-- The largest number that so many bytes behind the first can add to it, plus one. -/
def tailSpan : Nat → Nat
  | 0 => 1
  | n + 1 => 64 * tailSpan n

/-- The sequences of byte ranges for the numbers from `low` to `high`, which are written in a first byte
    behind `lead` and `n` bytes more.  A range that does not fill its last bytes is cut. -/
def byteSequences (lead : Nat) : Nat → Nat → Nat → List (List ByteRange)
  | 0, low, high => [[(lead + low, lead + high)]]
  | n + 1, low, high =>
    let span := tailSpan (n + 1)
    let a := low / span
    let b := high / span
    if a = b then
      (byteSequences 0x80 n (low % span) (high % span)).map ((lead + a, lead + a) :: ·)
    else
      let cutsFirst := low % span != 0
      let cutsLast := high % span != span - 1
      let first := if cutsFirst then
          (byteSequences 0x80 n (low % span) (span - 1)).map ((lead + a, lead + a) :: ·)
        else []
      let last := if cutsLast then
          (byteSequences 0x80 n 0 (high % span)).map ((lead + b, lead + b) :: ·)
        else []
      let a := if cutsFirst then a + 1 else a
      let b := if cutsLast then b - 1 else b
      let middle := if a ≤ b then
          [(lead + a, lead + b) :: List.replicate (n + 1) (0x80, 0xBF)]
        else []
      first ++ middle ++ last

/-- The code points that are written in equally many bytes: the first and the last, the first byte's
    sign, and the number of further bytes. -/
def byteForms : List (Nat × Nat × Nat × Nat) :=
  [(0, 0x7F, 0, 0), (0x80, 0x7FF, 0xC0, 1), (0x800, 0xD7FF, 0xE0, 2), (0xE000, 0xFFFF, 0xE0, 2),
   (0x10000, lastCode, 0xF0, 3)]

/-- The sequences of byte ranges for the characters of a set. -/
def sequences (a : CharSet) : List (List ByteRange) :=
  a.ranges.toList.flatMap fun r =>
    byteForms.flatMap fun (low, high, lead, n) =>
      let low := max low r.1
      let high := min high r.2
      if low ≤ high then byteSequences lead n low high else []

/-- Groups neighbouring sequences with the same first range: the range, and what follows it. -/
def groupFirst : List (List ByteRange) → List (ByteRange × List (List ByteRange))
  | [] => []
  | [] :: seqs => groupFirst seqs
  | (r :: rest) :: seqs =>
    match groupFirst seqs with
    | (s, rests) :: groups =>
      if r = s then (s, rest :: rests) :: groups else (r, [rest]) :: (s, rests) :: groups
    | [] => [(r, [rest])]

/-- The number of states that tell the beginnings of sequences apart. -/
def countBeginnings : Nat → List (List ByteRange) → Nat
  | 0, _ => 0
  | n + 1, seqs =>
    ((groupFirst seqs).map fun g => 1 + countBeginnings n g.2).foldl (· + ·) 0

/-- A state that reads a byte: its ranges, each with the number of the state behind it; 0 is the end. -/
abbrev ByteState := List (ByteRange × Nat)

/-- The number of a state, which is added if it is new. -/
def numberOf (state : ByteState) (states : Array ByteState) : Nat × Array ByteState :=
  match states.findIdx? (· == state) with
  | some i => (i + 1, states)
  | none => (states.size + 1, states.push state)

/-- The states that read some sequences of at most so many ranges, and the number of the first one. -/
def sharedStates : Nat → List (List ByteRange) → Array ByteState → Nat × Array ByteState
  | 0, _, states => (0, states)
  | n + 1, seqs, states =>
    if seqs.all List.isEmpty then (0, states)
    else
      let (state, states) := (groupFirst seqs).foldl
        (fun (state, states) g =>
          let (i, states) := sharedStates n g.2 states
          ((g.1, i) :: state, states))
        ([], states)
      numberOf state states

/-- Whether all characters of a set are written in one byte. -/
def isAscii (a : CharSet) : Bool := a.ranges.all fun r => r.2 < 0x80

/-- The weight of a set for reading forwards. -/
def forwardWeight (a : CharSet) : Nat :=
  if a.isAscii then 64 + 8 * a.ranges.size
  else
    let states := (sharedStates 4 a.sequences #[]).2
    32 + states.foldl (fun n state => n + 32 + 8 * state.length) 0

/-- The weight of a set for reading backwards. -/
def backwardWeight (a : CharSet) : Nat :=
  if a.isAscii then 64 + 8 * a.ranges.size
  else
    let seqs := a.sequences
    64 + 32 * countBeginnings 4 seqs + 4 * seqs.length

end CharSet

namespace Pattern

/-! ## The weight of a pattern -/

/-- The weight of a text. -/
def textWeight (cs : List Char) : Nat := 32 * cs.foldl (fun n c => n + c.utf8Size) 0

/-- The weight of a pattern, given those of sets and of what remembers a group. -/
def weight (setWeight : CharSet → Nat) (groupWeight : Nat) : Pattern → Nat
  | empty | edge _ => 32
  | text cs => textWeight cs
  | one set => setWeight set
  | group _ p => groupWeight + p.weight setWeight groupWeight
  | sequence p q => p.weight setWeight groupWeight + q.weight setWeight groupWeight
  | either p q =>
    let rest := q.weight setWeight groupWeight
    p.weight setWeight groupWeight + 4 + match q with
      | either _ _ => rest
      | _ => rest + 68
  | repetition p least none _ =>
    let w := p.weight setWeight groupWeight
    if least = 0 then (if p.neverEmpty then w + 40 else w + 112) else least * w + 40
  | repetition p least (some most) _ =>
    let w := p.weight setWeight groupWeight
    if most = least then most * w
    else if least = 0 ∧ most = 1 then w + 72
    else (if least = 0 then 32 else least * w) + (most - least) * (w + 40) + 32

/-- What a machine weighs in any case. -/
def frameWeight : Nat := 144

/-- The largest weight of a machine: ten mebibytes. -/
def weightLimit : Nat := 10 * 1024 * 1024

/-- Whether a pattern is not too large. -/
def fits (p : Pattern) : Bool :=
  p.weight CharSet.forwardWeight 64 + frameWeight ≤ weightLimit &&
    p.weight CharSet.backwardWeight 0 + frameWeight ≤ weightLimit

end Pattern

end Stencil
