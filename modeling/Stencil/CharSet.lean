/-
  Sets of characters.

  A set is kept as the ranges of its code points in increasing order.  No two of them overlap or touch,
  so two sets with the same characters are the same value, and whether a character is in a set is found
  by halving.  `ofRanges` brings any ranges into this form; the other operations go through it.

  Two sets arise from letter case: `folded` adds the characters that differ from one in the set by case
  only, and `foldedAscii` does so among the letters from A to Z.
-/
import Stencil.Text.Category

set_option autoImplicit false

namespace Stencil

open Stencil.Text (Category category categoryRuns foldings inRanges isAlphabeticBase)

/-- A set of characters: its ranges, first and last code point. -/
structure CharSet where
  /-- The ranges, in increasing order. -/
  ranges : Array (Nat × Nat)
  deriving DecidableEq, Repr, Inhabited

namespace CharSet

/-- The last code point. -/
def lastCode : Nat := 0x10FFFF

/-- Joins each range with those behind it that it overlaps or touches. -/
def join : List (Nat × Nat) → List (Nat × Nat)
  | [] => []
  | [r] => [r]
  | r :: s :: rs =>
    if s.1 ≤ r.2 + 1 ∧ r.1 ≤ s.2 + 1 then join ((min r.1 s.1, max r.2 s.2) :: rs)
    else r :: join (s :: rs)
termination_by rs => rs.length

/-- The set of the characters in some ranges. -/
def ofRanges (rs : List (Nat × Nat)) : CharSet :=
  ⟨(join (rs.mergeSort fun r s => r.1 ≤ s.1)).toArray⟩

/-- Joining ranges keeps what they cover. -/
theorem exists_mem_join {n : Nat} (rs : List (Nat × Nat)) :
    (∃ r ∈ join rs, r.1 ≤ n ∧ n ≤ r.2) ↔ ∃ r ∈ rs, r.1 ≤ n ∧ n ≤ r.2 := by
  fun_induction join rs with
  | case1 => simp
  | case2 => simp
  | case3 r s rs h ih =>
    rw [ih]
    simp only [List.mem_cons, or_and_right, exists_or, exists_eq_left]
    have hboth : (min r.1 s.1 ≤ n ∧ n ≤ max r.2 s.2) ↔
        (r.1 ≤ n ∧ n ≤ r.2) ∨ (s.1 ≤ n ∧ n ≤ s.2) := by omega
    rw [hboth, or_assoc]
  | case4 r s rs h ih =>
    simp only [List.mem_cons, or_and_right, exists_or, exists_eq_left] at ih ⊢
    rw [ih]

/-! ## Simple sets -/

/-- No character. -/
def empty : CharSet := ⟨#[]⟩

/-- The characters between two code points, these included. -/
def range (low high : Nat) : CharSet := ⟨#[(low, high)]⟩

/-- One character. -/
def single (c : Char) : CharSet := range c.toNat c.toNat

/-- All characters. -/
def all : CharSet := range 0 lastCode

/-- The character of a set that has only one. -/
def single? (a : CharSet) : Option Char :=
  match a.ranges.toList with
  | [(low, high)] => if low = high then some (Char.ofNat low) else none
  | _ => none

/-- The ranges of the runs that belong to some categories. -/
def runsOf (cs : List Category) : List (Nat × Category) → List (Nat × Nat)
  | [] => []
  | [(first, c)] => if cs.contains c then [(first, lastCode)] else []
  | (first, c) :: (next, d) :: runs =>
    if cs.contains c then (first, next - 1) :: runsOf cs ((next, d) :: runs)
    else runsOf cs ((next, d) :: runs)

/-- The characters of some general categories. -/
def ofCategories (cs : List Category) : CharSet := ofRanges (runsOf cs categoryRuns.toList)

/-! ## Membership -/

/-- Whether a code point is in the set. -/
def hasCode (a : CharSet) (n : Nat) : Bool := inRanges a.ranges n

/-- Whether a character is in the set. -/
def holds (a : CharSet) (c : Char) : Bool := a.hasCode c.toNat

/-- The range between two code points has just those. -/
theorem hasCode_range {low high n : Nat} :
    (range low high).hasCode n = (decide (low ≤ n) && decide (n ≤ high)) := by
  by_cases h : low ≤ n <;>
    simp [hasCode, range, inRanges, Stencil.Text.lastAtMost, Stencil.Text.placeAfter, h]

/-- Whether a character is part of words. -/
def isWord (c : Char) : Bool :=
  isAlphabeticBase c || (category c).isMark || category c == .nd || category c == .pc
    || c == '\u200c' || c == '\u200d'

/-- Whether a character is part of words in plain texts. -/
def isAsciiWord (c : Char) : Bool :=
  ('0' ≤ c && c ≤ '9') || ('A' ≤ c && c ≤ 'Z') || c == '_' || ('a' ≤ c && c ≤ 'z')

/-! ## Combinations -/

/-- The characters in either set. -/
def union (a b : CharSet) : CharSet := ofRanges (a.ranges.toList ++ b.ranges.toList)

/-- What lies between ranges, from a code point on. -/
def gaps (low : Nat) : List (Nat × Nat) → List (Nat × Nat)
  | [] => if low ≤ lastCode then [(low, lastCode)] else []
  | (first, last) :: rs =>
    if low < first then (low, first - 1) :: gaps (last + 1) rs else gaps (last + 1) rs

/-- The characters that are not in the set. -/
def complement (a : CharSet) : CharSet := ⟨(gaps 0 a.ranges.toList).toArray⟩

/-- The characters of one set that are not in another. -/
def difference (a b : CharSet) : CharSet := (a.complement.union b).complement

/-- The characters in both sets. -/
def inter (a b : CharSet) : CharSet := a.difference b.complement

/-- The characters in one set only. -/
def symmetricDifference (a b : CharSet) : CharSet := (a.difference b).union (b.difference a)

/-! ## Letter case -/

/-- The code points that fold to another one, with that one. -/
def foldPairs : List (Nat × Nat) :=
  foldings.toList.flatMap fun (first, count, stride, distance) =>
    (List.range count).map fun i =>
      (first + i * stride, (((first + i * stride : Nat) : Int) + distance).toNat)

/-- The set of some code points. -/
def ofCodes (ns : List Nat) : CharSet := ofRanges (ns.map fun n => (n, n))

/-- The code points that fold to another one or are folded to. -/
def cased : CharSet := ofCodes (foldPairs.flatMap fun p => [p.1, p.2])

/-- With each character of the set, those that have the same case folding. -/
def folded (a : CharSet) : CharSet :=
  let targets := ofCodes (foldPairs.filterMap fun p =>
    if a.hasCode p.1 || a.hasCode p.2 then some p.2 else none)
  let sources := ofCodes (foldPairs.filterMap fun p =>
    if targets.hasCode p.2 then some p.1 else none)
  (a.union targets).union sources

/-- With each letter from A to Z of the set, the capital or the small one. -/
def foldedAscii (a : CharSet) : CharSet :=
  let small := (a.inter (range 0x41 0x5A)).ranges.toList.map fun r => (r.1 + 32, r.2 + 32)
  let capital := (a.inter (range 0x61 0x7A)).ranges.toList.map fun r => (r.1 - 32, r.2 - 32)
  ofRanges (a.ranges.toList ++ small ++ capital)

end CharSet

end Stencil
