/-
  Reading integers.

  Two kinds of numeral occur.  A *bounded* numeral is an optional sign and decimal digits, and its
  value must lie in a given range: widths, offsets, counts and counters are such numerals.  A
  *free* numeral has no bound and may be grouped by underscores after its first digit: the values of
  decimal fields are such numerals.  Both take one leading plus or minus sign (a bounded numeral that
  admits no negative value takes a plus sign only), and neither admits blanks: callers trim first.

  What can go wrong is a `NumeralFault`.  The faults of a bounded numeral are found from the left:
  no character at all, a character that is no digit, then a value beyond a bound.
-/
set_option autoImplicit false

namespace Stencil.Text

/-- Why a text is no integer of the wanted kind. -/
inductive NumeralFault where
  /-- There is no digit because there is no text. -/
  | empty
  /-- A character that is no digit, or a sign alone. -/
  | invalidDigit
  /-- A value above the upper bound. -/
  | tooLarge
  /-- A value below the lower bound. -/
  | tooSmall
  deriving DecidableEq, Repr

/-- The wording of a fault. -/
def NumeralFault.message : NumeralFault → String
  | .empty => "cannot parse integer from empty string"
  | .invalidDigit => "invalid digit found in string"
  | .tooLarge => "number too large to fit in target type"
  | .tooSmall => "number too small to fit in target type"

/-- Decimal digits only. -/
def isDigit (c : Char) : Bool := '0' ≤ c && c ≤ '9'

/-- The value of a decimal digit. -/
def digitValue (c : Char) : Nat := c.toNat - 48

/-- The value of a run of decimal digits, most significant first. -/
def digitsValue (cs : List Char) : Nat := cs.foldl (fun n c => 10 * n + digitValue c) 0

/-- A range of integers that numerals are read into. -/
structure Bounds where
  /-- The least value. -/
  low : Int
  /-- The greatest value. -/
  high : Int

namespace Bounds

/-- Thirty-two bits with a sign. -/
def int32 : Bounds := ⟨-2147483648, 2147483647⟩
/-- Sixty-four bits with a sign. -/
def int64 : Bounds := ⟨-9223372036854775808, 9223372036854775807⟩
/-- Sixty-four bits without a sign. -/
def nat64 : Bounds := ⟨0, 18446744073709551615⟩

/-- Whether a value lies in the range. -/
def Holds (b : Bounds) (n : Int) : Prop := b.low ≤ n ∧ n ≤ b.high

instance (b : Bounds) (n : Int) : Decidable (b.Holds n) := by unfold Holds; infer_instance

end Bounds

/-- Reads digits into a range.  A numeral with a wrong character has that fault unless its leading
    digits alone leave the range, which is noticed first. -/
def boundedDigits (b : Bounds) (negative : Bool) (value : Int) :
    List Char → Except NumeralFault Int
  | [] => .ok value
  | c :: cs =>
    if isDigit c then
      let next := 10 * value + (if negative then -(digitValue c : Int) else digitValue c)
      if b.high < next then .error .tooLarge
      else if next < b.low then .error .tooSmall
      else boundedDigits b negative next cs
    else .error .invalidDigit

/-- Reads a bounded numeral. -/
def boundedInt (b : Bounds) (s : String) : Except NumeralFault Int :=
  match s.toList with
  | [] => .error .empty
  | ['+'] | ['-'] => .error .invalidDigit
  | '+' :: cs => boundedDigits b false 0 cs
  | '-' :: cs => if b.low < 0 then boundedDigits b true 0 cs else .error .invalidDigit
  | cs => boundedDigits b false 0 cs

/-- What is read lies in the range. -/
theorem holds_of_boundedDigits {b : Bounds} {negative : Bool} {value n : Int} {cs : List Char}
    (hv : b.Holds value) (h : boundedDigits b negative value cs = .ok n) : b.Holds n := by
  induction cs generalizing value with
  | nil => simp [boundedDigits] at h; exact h ▸ hv
  | cons c cs ih =>
    by_cases hd : isDigit c = true
    · by_cases hhi : b.high < 10 * value + (if negative then -(digitValue c : Int) else digitValue c)
      · simp [boundedDigits, hd, hhi] at h
      · by_cases hlo : 10 * value + (if negative then -(digitValue c : Int) else digitValue c) < b.low
        · simp [boundedDigits, hd, hhi, hlo] at h
        · refine ih ⟨Int.not_lt.mp hlo, Int.not_lt.mp hhi⟩ ?_
          simpa only [boundedDigits, hd, hhi, hlo, if_true, if_false] using h
    · simp [boundedDigits, hd] at h

/-! ## Free numerals -/

/-- Digits grouped by underscores; the first character is a digit. -/
def freeDigits (cs : List Char) : Except NumeralFault Nat :=
  match cs with
  | [] => .error .empty
  | '_' :: _ => .error .invalidDigit
  | _ =>
    let digits := cs.filter (· != '_')
    if digits.all isDigit then .ok (digitsValue digits) else .error .invalidDigit

/-- Reads an integer of any size.  After a minus sign no plus sign is skipped. -/
def freeInt (s : String) : Except NumeralFault Int :=
  match s.toList with
  | '-' :: '+' :: _ => .error .invalidDigit
  | '-' :: cs => (freeDigits cs).map fun n => -(n : Int)
  | '+' :: cs => (freeDigits cs).map fun n => (n : Int)
  | cs => (freeDigits cs).map fun n => (n : Int)

example : freeInt "-1_000" = .ok (-1000) := rfl
example : freeInt "" = .error .empty ∧ freeInt "-" = .error .empty := ⟨rfl, rfl⟩
example : freeInt "_1" = .error .invalidDigit ∧ freeInt "-+1" = .error .invalidDigit := ⟨rfl, rfl⟩
example : boundedInt .int32 "2147483648" = .error .tooLarge := rfl
example : boundedInt .nat64 "-1" = .error .invalidDigit := rfl

end Stencil.Text
