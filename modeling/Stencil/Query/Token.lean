/-
  The tokens of path queries.

  A query is cut into tokens from the left, each as long as possible.  Two things depend on the token
  before: an asterisk, and the words `and`, `or`, `div` and `mod`, are operators where an operand has
  just ended, and a name test or a name elsewhere.

  `Token.written` is how a token appears in error messages.
-/
import Stencil.Error
import Stencil.Number
import Stencil.Text.Blank
import Stencil.Text.Category

set_option autoImplicit false

namespace Stencil.Query

open Stencil.Text (isBlank isAlphabetic isAlphanumeric isDigit quote length_dropWhile_le)

/-- A token of a path query. -/
inductive Token where
  | slash | doubleSlash | dot | dotDot | atSign | comma
  | leftParen | rightParen | leftBracket | rightBracket
  | pipe | plus | minus | multiply | star
  | equal | notEqual | less | lessEqual | greater | greaterEqual
  | doubleColon | and | or | div | mod
  | literal (text : String)
  | number (value : Number.Decimal)
  | name (text : String)
  deriving DecidableEq, Repr

namespace Token

/-- Whether an operand ends with the token. -/
def endsOperand : Token → Bool
  | rightParen | rightBracket | dot | dotDot | star | literal _ | number _ | name _ => true
  | _ => false

/-- How a token appears in error messages. -/
def written : Token → String
  | slash => "Slash"
  | doubleSlash => "DoubleSlash"
  | dot => "Dot"
  | dotDot => "DotDot"
  | atSign => "At"
  | comma => "Comma"
  | leftParen => "LParen"
  | rightParen => "RParen"
  | leftBracket => "LBracket"
  | rightBracket => "RBracket"
  | pipe => "Pipe"
  | plus => "Plus"
  | minus => "Minus"
  | multiply => "Multiply"
  | star => "Star"
  | equal => "Eq"
  | notEqual => "Neq"
  | less => "Lt"
  | lessEqual => "Le"
  | greater => "Gt"
  | greaterEqual => "Ge"
  | doubleColon => "DoubleColon"
  | and => "And"
  | or => "Or"
  | div => "Div"
  | mod => "Mod"
  | literal text => "Literal(" ++ quote text ++ ")"
  | number value => "Number(" ++ Number.messageText value.toFloat ++ ")"
  | name text => "Name(" ++ quote text ++ ")"

/-- How the next token, or the end, appears in error messages. -/
def writtenNext : Option Token → String
  | some t => "Some(" ++ t.written ++ ")"
  | none => "None"

/-- Whether a name can start with a character. -/
def startsName (c : Char) : Bool := isAlphabetic c || c == '_'

/-- Whether a name can go on with a character. -/
def continuesName (c : Char) : Bool := isAlphanumeric c || c == '_' || c == '-' || c == '.'

/-- Whether a character can stand in a number. -/
def inNumber (c : Char) : Bool := isDigit c || c == '.'

/-- The tokens of two characters. -/
def ofPair : Char → Char → Option Token
  | '/', '/' => some doubleSlash
  | '.', '.' => some dotDot
  | '!', '=' => some notEqual
  | '<', '=' => some lessEqual
  | '>', '=' => some greaterEqual
  | ':', ':' => some doubleColon
  | _, _ => none

/-- The tokens of one character; a point before a digit is none. -/
def ofChar (operandEnded : Bool) (next : Option Char) : Char → Option Token
  | '/' => some slash
  | '.' => if next.any isDigit then none else some dot
  | '@' => some atSign
  | ',' => some comma
  | '(' => some leftParen
  | ')' => some rightParen
  | '[' => some leftBracket
  | ']' => some rightBracket
  | '|' => some pipe
  | '+' => some plus
  | '-' => some minus
  | '=' => some equal
  | '<' => some less
  | '>' => some greater
  | '*' => some (if operandEnded then multiply else star)
  | _ => none

/-- The token of a word. -/
def ofWord (operandEnded : Bool) (word : String) : Token :=
  if operandEnded then
    match word with
    | "and" => and
    | "or" => or
    | "div" => div
    | "mod" => mod
    | _ => name word
  else name word

/-- The number that a run of digits and points writes. -/
def numeral? (run : List Char) : Option Number.Decimal :=
  match Number.decimal? run with
  | some (d, []) => some d
  | _ => none

/-- The token at the beginning of a text that starts with no blank, and the rest of the text. -/
def first (operandEnded : Bool) (c : Char) (cs : List Char) : Except QueryFault (Token × List Char) :=
  match cs.head?.bind (ofPair c) with
  | some t => .ok (t, cs.drop 1)
  | none =>
    match ofChar operandEnded cs.head? c with
    | some t => .ok (t, cs)
    | none =>
      if c = '"' ∨ c = '\'' then
        match cs.dropWhile (· ≠ c) with
        | _ :: rest => .ok (literal (String.ofList (cs.takeWhile (· ≠ c))), rest)
        | [] => .error .unterminatedLiteral
      else if inNumber c then
        let run := c :: cs.takeWhile inNumber
        match numeral? run with
        | some d => .ok (number d, cs.dropWhile inNumber)
        | none => .error (.badNumber (String.ofList run))
      else if startsName c then
        let word := String.ofList (c :: cs.takeWhile continuesName)
        .ok (ofWord operandEnded word, cs.dropWhile continuesName)
      else .error (.unexpectedCharacter c)

/-- What follows a token is no longer than what follows its first character. -/
theorem length_first {operandEnded : Bool} {c : Char} {cs rest : List Char} {t : Token}
    (h : first operandEnded c cs = .ok (t, rest)) : rest.length ≤ cs.length := by
  unfold first at h
  split at h
  · simp only [Except.ok.injEq, Prod.mk.injEq] at h
    rw [← h.2, List.length_drop]; omega
  · split at h
    · simp only [Except.ok.injEq, Prod.mk.injEq] at h
      exact Nat.le_of_eq (by rw [h.2])
    · split at h
      · split at h
        · rename_i x r hr
          have l := length_dropWhile_le (fun d => decide (d ≠ c)) cs
          simp only [Except.ok.injEq, Prod.mk.injEq] at h
          rw [hr] at l
          simp only [List.length_cons] at l
          rw [← h.2]; omega
        · simp at h
      · split at h
        · simp only at h
          split at h
          · simp only [Except.ok.injEq, Prod.mk.injEq] at h
            rw [← h.2]; exact length_dropWhile_le _ _
          · simp at h
        · split at h
          · simp only [Except.ok.injEq, Prod.mk.injEq] at h
            rw [← h.2]; exact length_dropWhile_le _ _
          · simp at h

/-- Cuts a text into tokens; `last` is the token before. -/
def scan (last : Option Token) (cs : List Char) : Except QueryFault (List Token) :=
  match cs with
  | [] => .ok []
  | c :: ds =>
    if isBlank c then scan last ds
    else
      match _h : first (last.any endsOperand) c ds with
      | .error e => .error e
      | .ok (t, rest) =>
        match scan (some t) rest with
        | .error e => .error e
        | .ok ts => .ok (t :: ts)
termination_by cs.length
decreasing_by
  · simp
  · have := length_first _h
    simp only [List.length_cons]
    omega

/-- The tokens of a query. -/
def ofString (source : String) : Except QueryFault (List Token) := scan none source.toList

end Token

end Stencil.Query
