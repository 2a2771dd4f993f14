/-
  Moments of the calendar and their text under a pattern.

  A `Moment` is a date of the Gregorian calendar, reckoned backwards and forwards without end, with a
  time of day to the nanosecond; it belongs to no time zone.  A pattern says how to write it, in one
  of two notations:

    * with percent signs: `%Y`, `%m`, `%d` and their kin, a `-`, `0` or `_` after the percent sign
      choosing the padding of a number;
    * without: `yyyy`, `MM`, `dd`, `HH`, `mm`, `ss`, `fff`, `tt` and their kin, which are turned into
      the first notation.

  A pattern is read into a list of `Item`s first.  A pattern that cannot be read is refused, and so is
  one that asks for a time zone, which a moment cannot give.
-/
import Stencil.Error

set_option autoImplicit false

namespace Stencil

/-- A date and a time of day. -/
structure Moment where
  /-- The year; the year before 1 is 0. -/
  year : Int
  /-- The month, from 1. -/
  month : Nat
  /-- The day of the month, from 1. -/
  day : Nat
  /-- The hour, from 0. -/
  hour : Nat
  /-- The minute, from 0. -/
  minute : Nat
  /-- The second, from 0. -/
  second : Nat
  /-- The nanosecond; a thousand million or more in a leap second. -/
  nano : Nat
  deriving DecidableEq, Repr

namespace Moment

/-! ## The calendar -/

/-- Whether a year has a twenty-ninth of February. -/
def isLeap (year : Int) : Bool := year % 4 == 0 && (year % 100 != 0 || year % 400 == 0)

/-- The days of a month. -/
def daysIn (year : Int) (month : Nat) : Nat :=
  match month with
  | 4 | 6 | 9 | 11 => 30
  | 2 => if isLeap year then 29 else 28
  | _ => 31

/-- Whether the numbers name a moment: a day of the calendar, a time of a day, and a nanosecond that
    runs past the second only at the end of a minute. -/
def isValid (m : Moment) : Bool :=
  (-262143 ≤ m.year && m.year ≤ 262142)
    && (1 ≤ m.month && m.month ≤ 12)
    && (1 ≤ m.day && m.day ≤ daysIn m.year m.month)
    && m.hour < 24 && m.minute < 60 && m.second < 60
    && (m.nano < 1000000000 || (m.second == 59 && m.nano < 2000000000))

/-- The days of a year before a month. -/
def daysBeforeMonth (year : Int) (month : Nat) : Nat :=
  (List.range (month - 1)).foldl (fun n i => n + daysIn year (i + 1)) 0

/-- The day of the year, from 1. -/
def ordinal (m : Moment) : Nat := daysBeforeMonth m.year m.month + m.day

/-- The days between the first of January of the year 1 and that of another year. -/
def daysBefore (year : Int) : Int :=
  let y := year - 1
  365 * y + y / 4 - y / 100 + y / 400

/-- The days since the first of January 1970. -/
def dayNumber (m : Moment) : Int := daysBefore m.year + (m.ordinal : Int) - 1 - 719162

/-- The seconds since the beginning of 1970. -/
def timestamp (m : Moment) : Int :=
  86400 * m.dayNumber + (3600 * m.hour + 60 * m.minute + m.second : Nat)

/-- The day of the week, Sunday being 0. -/
def weekday (m : Moment) : Nat := ((m.dayNumber + 4) % 7).toNat

/-- The day of the week, Monday being 1 and Sunday 7. -/
def isoWeekday (m : Moment) : Nat := if m.weekday = 0 then 7 else m.weekday

/-- The number of the week when weeks begin on Sundays and days before the first are in week 0. -/
def weekFromSunday (m : Moment) : Nat := (m.ordinal + 6 - m.weekday) / 7

/-- The number of the week when weeks begin on Mondays and days before the first are in week 0. -/
def weekFromMonday (m : Moment) : Nat := (m.ordinal + 7 - m.isoWeekday) / 7

/-- How many weeks a year of weeks has: those that begin or end on a Thursday have one more. -/
def isoWeeks (year : Int) : Int :=
  let first := (daysBefore year + 1) % 7
  if first = 4 ∨ (first = 3 ∧ isLeap year) then 53 else 52

/-- The year of weeks and the week in it: a week belongs to the year its Thursday is in. -/
def isoWeek (m : Moment) : Int × Int :=
  let week : Int := ((m.ordinal : Int) - m.isoWeekday + 10) / 7
  if week < 1 then (m.year - 1, isoWeeks (m.year - 1))
  else if isoWeeks m.year < week then (m.year + 1, 1)
  else (m.year, week)

/-- The hour on a clock face. -/
def hour12 (m : Moment) : Nat := if m.hour % 12 = 0 then 12 else m.hour % 12

/-- The names of the days, from Sunday. -/
def weekdayNames : List String :=
  ["Sunday", "Monday", "Tuesday", "Wednesday", "Thursday", "Friday", "Saturday"]

/-- The names of the months. -/
def monthNames : List String :=
  ["January", "February", "March", "April", "May", "June", "July", "August", "September",
   "October", "November", "December"]

/-- The name of the day. -/
def weekdayName (m : Moment) : String := weekdayNames.getD m.weekday ""

/-- The name of the month. -/
def monthName (m : Moment) : String := monthNames.getD (m.month - 1) ""

end Moment

/-! ## Patterns -/

namespace TimePattern

/-- How a number is filled up at the left. -/
inductive Fill where
  | bare
  | zeros
  | blanks
  deriving DecidableEq, Repr

/-- The numbers a pattern can ask for. -/
inductive Quantity where
  | year | century | yearOfCentury | isoYear | isoYearOfCentury | quarter | month | day
  | weekFromSunday | weekFromMonday | isoWeek | weekday | isoWeekday | ordinal
  | hour | hour12 | minute | second | nanosecond | timestamp
  deriving DecidableEq, Repr

/-- The words a pattern can ask for. -/
inductive Word where
  | weekday | shortWeekday | month | shortMonth | upperHalf | lowerHalf
  deriving DecidableEq, Repr

/-- One item of a pattern. -/
inductive Item where
  /-- A character that stands for itself. -/
  | literal (c : Char)
  /-- A number. -/
  | quantity (q : Quantity) (fill : Fill)
  /-- A name. -/
  | word (w : Word)
  /-- The fraction of the second, to 3, 6 or 9 places, after a point or not. -/
  | fraction (places : Nat) (point : Bool)
  /-- The fraction of the second after a point, to as many places as it needs; nothing for zero. -/
  | neededFraction
  /-- Something about the time zone. -/
  | zone
  deriving DecidableEq, Repr

/-- Literal characters. -/
def literals (s : String) : List Item := s.toList.map .literal

/-- A number filled with zeros. -/
def zeroed (q : Quantity) : Item := .quantity q .zeros

/-- Month, day and year of the century. -/
def slashDate : List Item :=
  [zeroed .month, .literal '/', zeroed .day, .literal '/', zeroed .yearOfCentury]

/-- Hour, minute and second. -/
def clock : List Item :=
  [zeroed .hour, .literal ':', zeroed .minute, .literal ':', zeroed .second]

/-- The items that one letter after a percent sign stands for. -/
def letter : Char → Option (List Item)
  | 'A' => some [.word .weekday]
  | 'B' => some [.word .month]
  | 'C' => some [zeroed .century]
  | 'D' => some slashDate
  | 'F' => some [zeroed .year, .literal '-', zeroed .month, .literal '-', zeroed .day]
  | 'G' => some [zeroed .isoYear]
  | 'H' => some [zeroed .hour]
  | 'I' => some [zeroed .hour12]
  | 'M' => some [zeroed .minute]
  | 'P' => some [.word .lowerHalf]
  | 'R' => some [zeroed .hour, .literal ':', zeroed .minute]
  | 'S' => some [zeroed .second]
  | 'T' => some clock
  | 'U' => some [zeroed .weekFromSunday]
  | 'V' => some [zeroed .isoWeek]
  | 'W' => some [zeroed .weekFromMonday]
  | 'X' => some clock
  | 'Y' => some [zeroed .year]
  | 'Z' => some [.zone]
  | 'a' => some [.word .shortWeekday]
  | 'b' | 'h' => some [.word .shortMonth]
  | 'c' => some ([.word .shortWeekday, .literal ' ', .word .shortMonth, .literal ' ',
      .quantity .day .blanks, .literal ' '] ++ clock ++ [.literal ' ', zeroed .year])
  | 'd' => some [zeroed .day]
  | 'e' => some [.quantity .day .blanks]
  | 'f' => some [zeroed .nanosecond]
  | 'g' => some [zeroed .isoYearOfCentury]
  | 'j' => some [zeroed .ordinal]
  | 'k' => some [.quantity .hour .blanks]
  | 'l' => some [.quantity .hour12 .blanks]
  | 'm' => some [zeroed .month]
  | 'n' => some [.literal '\n']
  | 'p' => some [.word .upperHalf]
  | 'q' => some [.quantity .quarter .bare]
  | 'r' => some [zeroed .hour12, .literal ':', zeroed .minute, .literal ':', zeroed .second,
      .literal ' ', .word .upperHalf]
  | 's' => some [.quantity .timestamp .bare]
  | 't' => some [.literal '\t']
  | 'u' => some [.quantity .isoWeekday .bare]
  | 'v' => some [.quantity .day .blanks, .literal '-', .word .shortMonth, .literal '-', zeroed .year]
  | 'w' => some [.quantity .weekday .bare]
  | 'x' => some slashDate
  | 'y' => some [zeroed .yearOfCentury]
  | 'z' => some [.zone]
  | '+' => some [.zone]
  | '%' => some [.literal '%']
  | _ => none

/-- The same letter with a chosen filling, which only single numbers admit. -/
def filledLetter (fill : Fill) (c : Char) : Option (List Item) :=
  match letter c with
  | some [.quantity q _] => some [.quantity q fill]
  | _ => none

/-- Reads a pattern in the notation with percent signs. -/
def items : List Char → Option (List Item)
  | [] => some []
  | '%' :: '-' :: c :: cs => follow (filledLetter .bare c) (items cs)
  | '%' :: '0' :: c :: cs => follow (filledLetter .zeros c) (items cs)
  | '%' :: '_' :: c :: cs => follow (filledLetter .blanks c) (items cs)
  | '%' :: '#' :: 'z' :: cs => follow (some [.zone]) (items cs)
  | '%' :: ':' :: 'z' :: cs => follow (some [.zone]) (items cs)
  | '%' :: ':' :: ':' :: 'z' :: cs => follow (some [.zone]) (items cs)
  | '%' :: ':' :: ':' :: ':' :: 'z' :: cs => follow (some [.zone]) (items cs)
  | '%' :: '.' :: 'f' :: cs => follow (some [.neededFraction]) (items cs)
  | '%' :: '.' :: '3' :: 'f' :: cs => follow (some [.fraction 3 true]) (items cs)
  | '%' :: '.' :: '6' :: 'f' :: cs => follow (some [.fraction 6 true]) (items cs)
  | '%' :: '.' :: '9' :: 'f' :: cs => follow (some [.fraction 9 true]) (items cs)
  | '%' :: '3' :: 'f' :: cs => follow (some [.fraction 3 false]) (items cs)
  | '%' :: '6' :: 'f' :: cs => follow (some [.fraction 6 false]) (items cs)
  | '%' :: '9' :: 'f' :: cs => follow (some [.fraction 9 false]) (items cs)
  | '%' :: c :: cs => follow (letter c) (items cs)
  | ['%'] => none
  | c :: cs => follow (some [.literal c]) (items cs)
where
  /-- Joins what one place of the pattern and the rest of it stand for. -/
  follow (here rest : Option (List Item)) : Option (List Item) :=
    match here, rest with
    | some a, some b => some (a ++ b)
    | _, _ => none

/-- The tokens of the notation without percent signs; the first that fits is taken. -/
def tokens : List (List Char × List Char) :=
  [("yyyy".toList, "%Y".toList), ("yy".toList, "%y".toList), ("MM".toList, "%m".toList),
   ("dd".toList, "%d".toList), ("HH".toList, "%H".toList), ("hh".toList, "%I".toList),
   ("mm".toList, "%M".toList), ("ss".toList, "%S".toList), ("fff".toList, "%3f".toList),
   ("tt".toList, "%p".toList)]

/-- Turns the notation without percent signs into the one with them.  `skip` characters belong to a
    token that has been written. -/
def percentForm (skip : Nat) : List Char → List Char
  | [] => []
  | c :: cs =>
    match skip with
    | k + 1 => percentForm k cs
    | 0 =>
      match tokens.find? fun t => t.1.isPrefixOf (c :: cs) with
      | some (token, item) => item ++ percentForm (token.length - 1) cs
      | none => c :: percentForm 0 cs

/-- The pattern in the notation with percent signs; the empty pattern is a date and a time. -/
def canonical (pattern : String) : String :=
  if pattern.isEmpty then "%m/%d/%Y %H:%M:%S"
  else if pattern.contains '%' then pattern
  else String.ofList (percentForm 0 pattern.toList)

/-! ## Writing -/

/-- Fills a text up at the left. -/
def fillTo (c : Char) (width : Nat) (cs : List Char) : List Char :=
  List.replicate (width - cs.length) c ++ cs

/-- The digits of a number. -/
def digits (n : Nat) : List Char := Nat.toDigits 10 n

/-- A number of two digits.  The tens are written as the character so many after zero, also when
    there are ten or more of them. -/
def twoDigits (n : Nat) (fill : Fill) : List Char :=
  let ones := Char.ofNat (48 + n % 10)
  match n / 10, fill with
  | 0, .bare => [ones]
  | 0, .blanks => [' ', ones]
  | tens, _ => [Char.ofNat (48 + tens), ones]

/-- An integer in a width, with its sign always written or only if it is a minus; zeros stand after
    the sign, blanks before it. -/
def integer (n : Int) (width : Nat) (fill : Fill) (signed : Bool) : List Char :=
  let sign := if n < 0 then ['-'] else if signed then ['+'] else []
  let ds := digits n.natAbs
  match fill with
  | .bare => sign ++ ds
  | .zeros => sign ++ fillTo '0' (width - sign.length) ds
  | .blanks => fillTo ' ' width (sign ++ ds)

/-- A year: four digits, and a sign if that is not enough or it is before 0. -/
def yearText (year : Int) (fill : Fill) : List Char :=
  if 0 ≤ year ∧ year < 10000 then integer year 4 (if 1000 ≤ year then .bare else fill) false
  else integer year 5 fill true

/-- A number of the calendar as a byte: the low eight bits. -/
def asByte (n : Int) : Nat := (n % 256).toNat

/-- A quantity as text. -/
def quantityText (m : Moment) (fill : Fill) : Quantity → List Char
  | .year => yearText m.year fill
  | .century => twoDigits (asByte (m.year / 100)) fill
  | .yearOfCentury => twoDigits (m.year % 100).toNat fill
  | .isoYear => yearText m.isoWeek.1 fill
  | .isoYearOfCentury => twoDigits (m.isoWeek.1 % 100).toNat fill
  | .quarter => digits ((m.month - 1) / 3 + 1)
  | .month => twoDigits m.month fill
  | .day => twoDigits m.day fill
  | .weekFromSunday => twoDigits m.weekFromSunday fill
  | .weekFromMonday => twoDigits m.weekFromMonday fill
  | .isoWeek => twoDigits m.isoWeek.2.toNat fill
  | .weekday => digits m.weekday
  | .isoWeekday => digits m.isoWeekday
  | .ordinal => integer m.ordinal 3 fill false
  | .hour => twoDigits m.hour fill
  | .hour12 => twoDigits m.hour12 fill
  | .minute => twoDigits m.minute fill
  | .second => twoDigits (m.second + m.nano / 1000000000) fill
  | .nanosecond => integer (m.nano % 1000000000 : Nat) 9 fill false
  | .timestamp => integer m.timestamp 9 fill false

/-- A word as text. -/
def wordText (m : Moment) : Word → List Char
  | .weekday => m.weekdayName.toList
  | .shortWeekday => m.weekdayName.toList.take 3
  | .month => m.monthName.toList
  | .shortMonth => m.monthName.toList.take 3
  | .upperHalf => if m.hour < 12 then ['A', 'M'] else ['P', 'M']
  | .lowerHalf => if m.hour < 12 then ['a', 'm'] else ['p', 'm']

/-- The first places of the fraction of the second. -/
def fractionText (m : Moment) (places : Nat) : List Char :=
  fillTo '0' places (digits (m.nano % 1000000000 / Nat.pow 10 (9 - places)))

/-- An item as text; a moment has no answer about a time zone. -/
def itemText (m : Moment) : Item → Option (List Char)
  | .literal c => some [c]
  | .quantity q fill => some (quantityText m fill q)
  | .word w => some (wordText m w)
  | .fraction places point => some ((if point then ['.'] else []) ++ fractionText m places)
  | .neededFraction =>
    let n := m.nano % 1000000000
    if n = 0 then some []
    else if n % 1000000 = 0 then some ('.' :: fractionText m 3)
    else if n % 1000 = 0 then some ('.' :: fractionText m 6)
    else some ('.' :: fractionText m 9)
  | .zone => none

/-- Items as text, if each of them has one. -/
def itemsText (m : Moment) : List Item → Option (List Char)
  | [] => some []
  | i :: is =>
    match itemText m i, itemsText m is with
    | some a, some b => some (a ++ b)
    | _, _ => none

/-- The text of a moment under a pattern. -/
def format (m : Moment) (pattern : String) : Except Error String :=
  let p := canonical pattern
  match items p.toList with
  | none => .error (.of (.badTimeFormat p))
  | some is =>
    match itemsText m is with
    | none => .error (.of (.timeNotFormattable p))
    | some cs => .ok (String.ofList cs)

end TimePattern

end Stencil
