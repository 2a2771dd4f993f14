/-
  Properties of characters that depend on the Unicode character database.

  Four questions are asked of a character elsewhere in the library:

    * `isAlphabetic`, `isAlphanumeric`: may it stand in a name of a path query?
    * `isPlain`: is it written as itself inside quotation marks (`Stencil.Text.Quoted`)?
    * `category`: the general category, for the classes of patterns;
    * `foldCase`: the simple case folding, for patterns that ignore case.

  The first two know the characters of a later version of Unicode than the last two.

  The packed tables of `Stencil.Text.CategoryData` are unpacked once into sorted arrays of ranges and
  searched by halving.
-/
import Stencil.Text.CategoryData

set_option autoImplicit false

namespace Stencil.Text

/-- The general categories of Unicode, under their two-letter names. -/
inductive Category where
  | lu | ll | lt | lm | lo | mn | mc | me | nd | nl | no | pc | pd | ps | pe | pi | pf | po
  | sm | sc | sk | so | zs | zl | zp | cc | cf | cs | co | cn
  deriving DecidableEq, Repr, Inhabited

namespace Category

/-- Every category with its name. -/
def names : List (String × Category) :=
  [("Lu", lu), ("Ll", ll), ("Lt", lt), ("Lm", lm), ("Lo", lo), ("Mn", mn), ("Mc", mc), ("Me", me),
   ("Nd", nd), ("Nl", nl), ("No", no), ("Pc", pc), ("Pd", pd), ("Ps", ps), ("Pe", pe), ("Pi", pi),
   ("Pf", pf), ("Po", po), ("Sm", sm), ("Sc", sc), ("Sk", sk), ("So", so), ("Zs", zs), ("Zl", zl),
   ("Zp", zp), ("Cc", cc), ("Cf", cf), ("Cs", cs), ("Co", co), ("Cn", cn)]

/-- The category of a two-letter name; an unknown name counts as unassigned. -/
def ofName (a b : Char) : Category :=
  ((names.find? fun p => p.1.toList == [a, b]).map Prod.snd).getD cn

/-- The two-letter name. -/
def name (c : Category) : String :=
  ((names.find? fun p => p.2 == c).map Prod.fst).getD "Cn"

/-- Names are read back. -/
theorem ofName_name (c : Category) :
    (match c.name.toList with | [a, b] => ofName a b | _ => cn) = c := by
  cases c <;> decide

/-- The letters. -/
def isLetter : Category → Bool
  | lu | ll | lt | lm | lo => true
  | _ => false

/-- The marks. -/
def isMark : Category → Bool
  | mn | mc | me => true
  | _ => false

/-- The numbers: digits, letter numbers and others. -/
def isNumber : Category → Bool
  | nd | nl | no => true
  | _ => false

/-- Separators, controls and code points without a character: nothing that prints. -/
def isInvisible : Category → Bool
  | zs | zl | zp | cc | cf | cs | co | cn => true
  | _ => false

end Category

/-! ## Unpacking the tables -/

/-- The value of a hexadecimal digit, zero for anything else. -/
def hexValue (c : Char) : Nat :=
  if '0' ≤ c ∧ c ≤ '9' then c.toNat - 48
  else if 'a' ≤ c ∧ c ≤ 'f' then c.toNat - 87
  else if 'A' ≤ c ∧ c ≤ 'F' then c.toNat - 55
  else 0

/-- Reads the runs of general categories: the current number, the last start, the runs so far. -/
def unpackCategories (n start : Nat) (runs : Array (Nat × Category)) :
    List Char → Array (Nat × Category)
  | [] => runs
  | [_] => runs
  | c :: d :: cs =>
    if 'A' ≤ c ∧ c ≤ 'Z' then
      unpackCategories 0 (start + n) (runs.push (start + n, Category.ofName c d)) cs
    else unpackCategories (16 * n + hexValue c) start runs (d :: cs)

/-- The value of hexadecimal digits. -/
def hexNumber (ds : List Char) : Nat := ds.foldl (fun n c => 16 * n + hexValue c) 0

/-- Numbers separated by single spaces, a minus sign in front of the negative ones. -/
def unpackNumbers (s : String) : List Int :=
  (s.splitOn " ").map fun w =>
    match w.toList with
    | '-' :: ds => -(hexNumber ds : Int)
    | ds => (hexNumber ds : Int)

/-- Reads a range of code points, first and last, that is given by its distance from `last` and, behind
    a plus sign, its extent. -/
def unpackRange (last : Nat) (word : List Char) : Nat × Nat :=
  let first := last + hexNumber (word.takeWhile (· != '+'))
  (first, first + hexNumber ((word.dropWhile (· != '+')).drop 1))

/-- Reads ranges of code points, one per word. -/
def unpackRanges (s : String) : Array (Nat × Nat) :=
  ((s.splitOn " ").filter fun w => !w.isEmpty).foldl
    (fun ranges w => ranges.push (unpackRange (ranges.back?.elim 0 Prod.snd) w.toList)) #[]

/-- Reads case foldings: first code point, count, stride, distance. -/
def unpackFoldings (folds : Array (Nat × Nat × Nat × Int)) :
    List Int → Array (Nat × Nat × Nat × Int)
  | first :: count :: stride :: distance :: ns =>
    unpackFoldings (folds.push (first.toNat, count.toNat, stride.toNat, distance)) ns
  | _ => folds

/-- The runs of general categories, in order of their first code points. -/
def categoryRuns : Array (Nat × Category) :=
  unpackCategories 0 0 #[] CategoryData.generalCategories.toList

/-- Alphabetic code points beyond letters and letter numbers. -/
def alphabeticRanges : Array (Nat × Nat) := unpackRanges CategoryData.otherAlphabetic

/-- Grapheme extenders beyond nonspacing and enclosing marks. -/
def extenderRanges : Array (Nat × Nat) := unpackRanges CategoryData.otherGraphemeExtend

/-- Alphabetic code points of the later version. -/
def addedAlphabeticRanges : Array (Nat × Nat) := unpackRanges CategoryData.addedAlphabetic

/-- Numbers of the later version. -/
def addedNumberRanges : Array (Nat × Nat) := unpackRanges CategoryData.addedNumbers

/-- Visible characters of the later version. -/
def addedVisibleRanges : Array (Nat × Nat) := unpackRanges CategoryData.addedVisible

/-- Simple case foldings. -/
def foldings : Array (Nat × Nat × Nat × Int) :=
  unpackFoldings #[] (unpackNumbers CategoryData.caseFoldings)

/-! ## Searching -/

/-- The number of entries, among those from `lo` to `hi`, up to the last one whose key is at most
    `n`, plus `lo`: the place after the entry that may hold `n`.  The keys increase. -/
def placeAfter {α : Type} (key : α → Nat) (a : Array α) (n lo hi : Nat) (h : hi ≤ a.size) : Nat :=
  if hlt : lo < hi then
    have hmid : (lo + hi) / 2 < a.size := by omega
    if key a[(lo + hi) / 2] ≤ n then placeAfter key a n ((lo + hi) / 2 + 1) hi h
    else placeAfter key a n lo ((lo + hi) / 2) (by omega)
  else lo
termination_by hi - lo
decreasing_by all_goals omega

/-- The last entry whose key is at most `n`. -/
def lastAtMost {α : Type} (key : α → Nat) (a : Array α) (n : Nat) : Option α :=
  match placeAfter key a n 0 a.size (Nat.le_refl _) with
  | 0 => none
  | k + 1 => a[k]?

/-- Whether a code point lies in one of the ranges. -/
def inRanges (ranges : Array (Nat × Nat)) (n : Nat) : Bool :=
  match lastAtMost Prod.fst ranges n with
  | some (_, last) => n ≤ last
  | none => false

/-! ## Properties -/

/-- The general category of a character. -/
def category (c : Char) : Category :=
  ((lastAtMost Prod.fst categoryRuns c.toNat).map Prod.snd).getD .cn

/-- The property Alphabetic, without the characters of the later version. -/
def isAlphabeticBase (c : Char) : Bool :=
  (category c).isLetter || category c == .nl || inRanges alphabeticRanges c.toNat

/-- The property Alphabetic. -/
def isAlphabetic (c : Char) : Bool :=
  if c.toNat < 128 then c.isAlpha
  else isAlphabeticBase c || inRanges addedAlphabeticRanges c.toNat

/-- Alphabetic, or a number of any kind. -/
def isAlphanumeric (c : Char) : Bool :=
  if c.toNat < 128 then c.isAlphanum
  else isAlphabetic c || (category c).isNumber || inRanges addedNumberRanges c.toNat

/-- Whether a character merges with the one before it: the property Grapheme_Extend, without the
    halfwidth sound marks, which take a place of their own. -/
def extendsGrapheme (c : Char) : Bool :=
  if c.toNat < 128 then false
  else
    (category c == .mn || category c == .me || inRanges extenderRanges c.toNat)
      && c != '\uff9e' && c != '\uff9f'

/-- Whether a character is written as itself inside quotation marks (quotation marks, backslashes
    and the named controls apart): it is visible, or the space, and extends no grapheme. -/
def isPlain (c : Char) : Bool :=
  if c.toNat < 128 then 0x20 ≤ c.toNat && c.toNat < 0x7F
  else (!(category c).isInvisible && !extendsGrapheme c) || inRanges addedVisibleRanges c.toNat

/-- Simple case folding. -/
def foldCase (c : Char) : Char :=
  let n := c.toNat
  match lastAtMost Prod.fst foldings n with
  | some (first, count, stride, distance) =>
    if (n - first) % stride = 0 ∧ (n - first) / stride < count then
      Char.ofNat ((n : Int) + distance).toNat
    else c
  | none => c

/-- Core's letters are alphabetic. -/
theorem isAlphabetic_of_isAlpha {c : Char} (h : c.isAlpha = true) : isAlphabetic c = true := by
  have hcases : (decide (c.val ≥ 'A'.val ∧ c.val ≤ 'Z'.val)
      || decide (c.val ≥ 'a'.val) && decide (c.val ≤ 'z'.val)) = true := h
  have hlt : c.toNat < 128 := by
    simp only [Bool.or_eq_true, Bool.and_eq_true, decide_eq_true_eq] at hcases
    rcases hcases with ⟨_, hle⟩ | ⟨_, hle⟩ <;>
      exact Nat.lt_of_le_of_lt (UInt32.le_iff_toNat_le.mp hle) (by decide)
  simp only [isAlphabetic, if_pos hlt, h]

end Stencil.Text
