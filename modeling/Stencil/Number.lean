/-
  Numbers of path queries and their text.

  Path queries compute with double-precision floating-point numbers.  Three things about them need
  exact arithmetic and are done here over natural numbers:

    * the **shortest text**: the fewest digits that are read back as the same number, and of those the
      nearest to it.  A number other than zero is a whole number times a power of two (`Dyadic`); the
      reals that round to it form an interval around it; on the grid of multiples of a power of ten
      only the two neighbours of the number can be the nearest points in that interval, and the
      coarsest grid with a point in the interval has the fewest digits;
    * **reading** a decimal text, with an exponent or without;
    * the **remainder** of a division, which for floating-point numbers is always exact.

  A number is written without an exponent, however long that makes it (`text`).  Inside error
  messages, numbers keep a digit behind the point and large and small ones have an exponent
  (`messageText`).
-/
import Stencil.Text.Integer

set_option autoImplicit false

namespace Stencil.Number

/-! ## Exact values -/

/-- A whole number times a power of two, with a sign. -/
structure Dyadic where
  /-- Whether the value is negative, or a negative zero. -/
  negative : Bool
  /-- The whole number. -/
  mantissa : Nat
  /-- The power. -/
  exponent : Int
  deriving DecidableEq, Repr

/-- The exact value of a finite number. -/
def dyadic (x : Float) : Dyadic :=
  let bits : Nat := x.toBits.toNat
  let field : Nat := bits / 4503599627370496 % 2048
  let fraction : Nat := bits % 4503599627370496
  let negative : Bool := 9223372036854775808 ≤ bits
  if field = 0 then ⟨negative, fraction, -1074⟩
  else ⟨negative, 4503599627370496 + fraction, (field : Int) - 1075⟩

/-- The whole part of the value, toward zero. -/
def Dyadic.whole (d : Dyadic) : Int :=
  let n : Nat :=
    match d.exponent with
    | .ofNat e => d.mantissa * Nat.pow 2 e
    | .negSucc e => d.mantissa / Nat.pow 2 (e + 1)
  if d.negative then -(n : Int) else n

/-- Whether the value is a whole number. -/
def Dyadic.isWhole (d : Dyadic) : Bool :=
  match d.exponent with
  | .ofNat _ => true
  | .negSucc e => d.mantissa % Nat.pow 2 (e + 1) == 0

/-! ## Shortest digits -/

/-- Reals as quotients of natural numbers. -/
structure Quotient where
  /-- The dividend. -/
  num : Nat
  /-- The divisor, not zero. -/
  den : Nat

/-- A natural number times a power of some base, which may be negative. -/
def scaled (n base : Nat) (exponent : Int) : Quotient :=
  match exponent with
  | .ofNat e => ⟨n * Nat.pow base e, 1⟩
  | .negSucc e => ⟨n, Nat.pow base (e + 1)⟩

/-- Whether one quotient is less than another. -/
def Quotient.lt (a b : Quotient) : Bool := a.num * b.den < b.num * a.den

/-- The interval of reals that round to a number: its ends, and whether they belong to it. -/
structure Interval where
  /-- The lower end. -/
  low : Quotient
  /-- The upper end. -/
  high : Quotient
  /-- Whether the ends belong to the interval. -/
  closed : Bool

/-- Whether a real lies in the interval. -/
def Interval.holds (i : Interval) (q : Quotient) : Bool :=
  if i.closed then !(q.lt i.low) && !(i.high.lt q) else i.low.lt q && q.lt i.high

/-- The interval of a value that is not zero.  Numbers have 53 digits of base two, so the gap below a
    power of two is half the gap above, except at the bottom of the range. -/
def Dyadic.interval (d : Dyadic) : Interval :=
  let step : Nat := if d.mantissa = 4503599627370496 ∧ -1074 < d.exponent then 1 else 2
  ⟨scaled (4 * d.mantissa - step) 2 (d.exponent - 2), scaled (4 * d.mantissa + 2) 2 (d.exponent - 2),
    d.mantissa % 2 == 0⟩

/-- Decimal digits, and the power of ten of the last one. -/
structure Digits where
  /-- The digits as a number. -/
  value : Nat
  /-- The power of ten of the last digit. -/
  exponent : Int
  deriving DecidableEq, Repr

/-- The point of the grid of multiples of `10 ^ exponent` that lies in the interval of a value and is
    nearest to the value, if there is one.  Of two that are equally near, the upper one. -/
def gridPoint? (d : Dyadic) (exponent : Int) : Option Digits :=
  let v := scaled d.mantissa 2 d.exponent
  let unit := scaled 1 10 exponent
  let below := v.num * unit.den / (v.den * unit.num)
  let inside (k : Nat) : Bool := d.interval.holds (scaled k 10 exponent)
  let upper := v.num * unit.den * 2 ≥ (2 * below + 1) * (v.den * unit.num)
  match inside below, inside (below + 1) with
  | true, true => some ⟨if upper then below + 1 else below, exponent⟩
  | true, false => some ⟨below, exponent⟩
  | false, true => some ⟨below + 1, exponent⟩
  | false, false => none

/-- The first point found on grids that get finer, in at most so many steps. -/
def firstPoint (d : Dyadic) : Nat → Int → Digits
  | 0, exponent => ⟨0, exponent⟩
  | n + 1, exponent =>
    match gridPoint? d exponent with
    | some p => p
    | none => firstPoint d n (exponent - 1)

/-- The fewest digits that are read back as the value, nearest to it.  The coarsest grid is above the
    greatest number, the finest below the least. -/
def shortest (d : Dyadic) : Digits := firstPoint d 640 309

/-! ## Writing -/

/-- The digits of a natural number. -/
def digitChars (n : Nat) : List Char := Nat.toDigits 10 n

/-- Digits without an exponent: zeros fill the places up to the point. -/
def Digits.positional (d : Digits) : List Char :=
  let cs := digitChars d.value
  match d.exponent with
  | .ofNat e => cs ++ List.replicate e '0'
  | .negSucc e =>
    let places := e + 1
    if places < cs.length then cs.take (cs.length - places) ++ '.' :: cs.drop (cs.length - places)
    else ['0', '.'] ++ List.replicate (places - cs.length) '0' ++ cs

/-- The text of a finite number. -/
def finiteText (x : Float) : List Char :=
  let d := dyadic x
  if d.isWhole && d.whole.natAbs < 1000000000000000000 then (toString d.whole).toList
  else (if d.negative then ['-'] else []) ++ (shortest d).positional

/-- The text of a number. -/
def text (x : Float) : String :=
  if x.isNaN then "NaN"
  else if x.isInf then (if x > 0 then "Infinity" else "-Infinity")
  else String.ofList (finiteText x)

/-- Digits with one of them before the point and a power of ten. -/
def Digits.exponential (d : Digits) : List Char :=
  let cs := digitChars d.value
  let exponent : Int := d.exponent + (cs.length - 1 : Nat)
  cs.take 1 ++ (if cs.length ≤ 1 then [] else '.' :: cs.drop 1) ++ 'e' :: (toString exponent).toList

/-- The text of a number that is not negative, as error messages show it. -/
def messageText (x : Float) : String :=
  if x.isInf then "inf"
  else
    let d := dyadic x
    if d.mantissa = 0 then "0.0"
    else
      let digits := shortest d
      if x ≥ 1e16 || x < 1e-4 then String.ofList digits.exponential
      else
        let cs := digits.positional
        String.ofList (if cs.contains '.' then cs else cs ++ ['.', '0'])

/-! ## Reading -/

/-- The number nearest to `value * 10 ^ exponent`.  Values far beyond the range are not computed. -/
def ofDigits (value : Nat) (exponent : Int) : Float :=
  if value = 0 then 0
  else
    let magnitude : Int := (digitChars value).length + exponent
    if 400 < magnitude then 1.0 / 0.0
    else if magnitude < -400 then 0
    else
      match exponent with
      | .ofNat e => Float.ofScientific value false e
      | .negSucc e => Float.ofScientific value true (e + 1)

/-- A decimal numeral: digits, of which the last `places` stand behind the point. -/
structure Decimal where
  /-- The digits as a number. -/
  value : Nat
  /-- The number of digits behind the point. -/
  places : Nat
  deriving DecidableEq, Repr

/-- The number nearest to a numeral. -/
def Decimal.toFloat (d : Decimal) : Float := ofDigits d.value (-(d.places : Int))

open Stencil.Text (isDigit digitsValue)

/-- Reads digits with at most one point among or around them, and at least one digit; gives what
    follows them. -/
def decimal? (cs : List Char) : Option (Decimal × List Char) :=
  let whole := cs.takeWhile isDigit
  let rest := cs.dropWhile isDigit
  let (fraction, rest) :=
    match rest with
    | '.' :: ds => (ds.takeWhile isDigit, ds.dropWhile isDigit)
    | _ => ([], rest)
  if whole.isEmpty && fraction.isEmpty then none
  else some (⟨digitsValue (whole ++ fraction), fraction.length⟩, rest)

/-- Reads an exponent, which ends the text; no text is the exponent 0. -/
def exponent? (cs : List Char) : Option Int :=
  let digits (ds : List Char) : Option Nat :=
    if !ds.isEmpty && ds.all isDigit then some (digitsValue ds) else none
  match cs with
  | [] => some 0
  | e :: ds =>
    if e = 'e' ∨ e = 'E' then
      match ds with
      | '-' :: ds => (digits ds).map fun n => -(n : Int)
      | '+' :: ds => (digits ds).map fun n => (n : Int)
      | ds => (digits ds).map fun n => (n : Int)
    else none

/-- Reads a number without a sign. -/
def unsigned? (cs : List Char) : Option Float :=
  match String.ofList (cs.map Char.toLower) with
  | "inf" | "infinity" => some (1.0 / 0.0)
  | "nan" => some (0.0 / 0.0)
  | _ =>
    match decimal? cs with
    | none => none
    | some (d, rest) => (exponent? rest).map fun e => ofDigits d.value (e - d.places)

/-- Reads a number. -/
def ofString? (s : String) : Option Float :=
  match s.toList with
  | '-' :: cs => (unsigned? cs).map fun x => -x
  | '+' :: cs => unsigned? cs
  | cs => unsigned? cs

/-! ## Remainder -/

/-- The remainder of a division whose quotient is cut off toward zero; it has the sign of `x`. -/
def remainder (x y : Float) : Float :=
  if x.isNaN || y.isNaN || x.isInf || y == 0 then 0.0 / 0.0
  else if y.isInf then x
  else
    let a := dyadic x
    let b := dyadic y
    let e := min a.exponent b.exponent
    let aligned (d : Dyadic) : Nat := d.mantissa * Nat.pow 2 (d.exponent - e).toNat
    let r := aligned a % aligned b
    let magnitude := (Float.ofNat r).scaleB e
    if a.negative then -magnitude else magnitude

end Stencil.Number
