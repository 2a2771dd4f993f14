/-
  Printed queries.

  A query is printed as tokens with single spaces between them.  Steps have their axes, and any name on an axis is
  an asterisk.  An operand stands in parentheses where its place asks for tighter operators than its own, and in
  as many further pairs of parentheses as one likes (`Extra`).

  Places and queries have the same levels.  Of operators between operands the loosest have level 0 and the tightest
  level 5, as in `Parser.levels`; a minus sign has level 6, a union 7, a path 8, and what is no path but can begin
  one 9.  The left operand of an operator has the place of the operator's level, and the right one the next: operators
  of one level group to the left.  What a filter narrows has place 10, so it always stands in parentheses.

  `Expr.Printable` are the queries that the grammar has: names are names, no literal has both kinds of quotes, a
  relative path goes somewhere, and a filter narrows or continues something.
-/
import Stencil.Query.Parser

set_option autoImplicit false

namespace Stencil.Query

open Stencil.Text (isBlank)

/-! ## Tokens as texts -/

namespace Token

/-- Whether a word is a name. -/
def isName (word : String) : Bool :=
  match word.toList with
  | [] => false
  | c :: cs => startsName c && !isBlank c && cs.all continuesName

/-- The quotes around a literal: double ones if it has none. -/
def quoteFor (cs : List Char) : Char := if '"' ∈ cs then '\'' else '"'

/-- The characters of a token. -/
def spelled : Token → List Char
  | slash => ['/']
  | doubleSlash => ['/', '/']
  | dot => ['.']
  | dotDot => ['.', '.']
  | atSign => ['@']
  | comma => [',']
  | leftParen => ['(']
  | rightParen => [')']
  | leftBracket => ['[']
  | rightBracket => [']']
  | pipe => ['|']
  | plus => ['+']
  | minus => ['-']
  | multiply | star => ['*']
  | equal => ['=']
  | notEqual => ['!', '=']
  | less => ['<']
  | lessEqual => ['<', '=']
  | greater => ['>']
  | greaterEqual => ['>', '=']
  | doubleColon => [':', ':']
  | and => ['a', 'n', 'd']
  | or => ['o', 'r']
  | div => ['d', 'i', 'v']
  | mod => ['m', 'o', 'd']
  | literal text => quoteFor text.toList :: text.toList ++ [quoteFor text.toList]
  | number d => (Number.Digits.mk d.value (-(d.places : Int))).positional
  | name text => text.toList

/-- Tokens with single spaces between them. -/
def spell : List Token → List Char
  | [] => []
  | [t] => t.spelled
  | t :: u :: ts => t.spelled ++ ' ' :: spell (u :: ts)

end Token

/-! ## Levels -/

namespace Operator

/-- The level of an operator. -/
def level : Operator → Nat
  | or => 0
  | and => 1
  | equal | notEqual => 2
  | less | lessEqual | greater | greaterEqual => 3
  | add | subtract => 4
  | multiply | divide | modulo => 5

/-- The token of an operator. -/
def token : Operator → Token
  | or => .or
  | and => .and
  | equal => .equal
  | notEqual => .notEqual
  | less => .less
  | lessEqual => .lessEqual
  | greater => .greater
  | greaterEqual => .greaterEqual
  | add => .plus
  | subtract => .minus
  | multiply => .multiply
  | divide => .div
  | modulo => .mod

end Operator

/-- Numbers of pairs of parentheses beyond those that are needed.  An operand is found by the indices on the way to
    it, the outermost first. -/
abbrev Extra := List Nat → Nat

/-- The pairs of parentheses below an operand. -/
def Extra.below (x : Extra) (i : Nat) : Extra := fun way => x (i :: way)

/-- Tokens in so many pairs of parentheses. -/
def parenthesized : Nat → List Token → List Token
  | 0, ts => ts
  | n + 1, ts => .leftParen :: parenthesized n ts ++ [.rightParen]

namespace Expr

/-- The level of a query. -/
def level : Expr → Nat
  | binary op _ _ => op.level
  | negate _ => 6
  | union _ _ => 7
  | path _ _ | filter _ _ _ => 8
  | literal _ | number _ | call _ _ => 9

/-- Whether a query is a bare slash. -/
def isRoot : Expr → Bool
  | path true [] => true
  | _ => false

/-- The number of pairs of parentheses that a query needs at a place. -/
def needed (place : Nat) (e : Expr) : Nat := if e.level < place ∨ e.isRoot = true then 1 else 0

/-- The tokens of a query in the parentheses that it has at a place. -/
def enclosed (place : Nat) (x : Extra) (e : Expr) (ts : List Token) : List Token :=
  parenthesized (x [] + e.needed place) ts

end Expr

/-! ## Queries as tokens -/

/-- The tokens of a test. -/
def NodeTest.tokens : NodeTest → List Token
  | named name => [.name name]
  | any => [.star]
  | text => [.name "text", .leftParen, .rightParen]
  | node => [.name "node", .leftParen, .rightParen]

open Stencil.Query.Expr (enclosed)

mutual

/-- The tokens of a query without parentheses around it. -/
def Expr.body (x : Extra) : Expr → List Token
  | .literal text => [.literal text]
  | .number d => [.number d]
  | .path true [] => [.slash]
  | .path true (s :: ss) => moreStepTokens x 0 (s :: ss)
  | .path false [] => []
  | .path false (s :: ss) => stepTokens (x.below 0) s ++ moreStepTokens x 1 ss
  | .filter primary ps ss =>
    enclosed 10 (x.below 0) primary (Expr.body (x.below 0) primary)
      ++ (predicateTokens (x.below 1) 0 ps ++ moreStepTokens (x.below 2) 0 ss)
  | .binary op left right =>
    enclosed op.level (x.below 0) left (Expr.body (x.below 0) left)
      ++ op.token :: enclosed (op.level + 1) (x.below 1) right (Expr.body (x.below 1) right)
  | .negate operand => .minus :: enclosed 6 (x.below 0) operand (Expr.body (x.below 0) operand)
  | .union left right =>
    enclosed 7 (x.below 0) left (Expr.body (x.below 0) left)
      ++ .pipe :: enclosed 8 (x.below 1) right (Expr.body (x.below 1) right)
  | .call function [] => [.name function, .leftParen, .rightParen]
  | .call function (e :: es) =>
    .name function :: .leftParen
      :: (enclosed 0 (x.below 0) e (Expr.body (x.below 0) e) ++ moreArgumentTokens x 1 es)

/-- The tokens of the arguments behind the first one, and of the closing parenthesis. -/
def moreArgumentTokens (x : Extra) (i : Nat) : List Expr → List Token
  | [] => [.rightParen]
  | e :: es =>
    .comma :: (enclosed 0 (x.below i) e (Expr.body (x.below i) e) ++ moreArgumentTokens x (i + 1) es)

/-- The tokens of a step. -/
def stepTokens (x : Extra) : Step → List Token
  | .mk axis test ps => .name axis.name :: .doubleColon :: (test.tokens ++ predicateTokens x 0 ps)

/-- The tokens of steps, each behind a slash. -/
def moreStepTokens (x : Extra) (i : Nat) : List Step → List Token
  | [] => []
  | s :: ss => .slash :: (stepTokens (x.below i) s ++ moreStepTokens x (i + 1) ss)

/-- The tokens of predicates. -/
def predicateTokens (x : Extra) (i : Nat) : List Expr → List Token
  | [] => []
  | p :: ps =>
    .leftBracket :: (enclosed 0 (x.below i) p (Expr.body (x.below i) p)
      ++ .rightBracket :: predicateTokens x (i + 1) ps)

end

/-- The tokens of a query at a place. -/
def Expr.tokens (place : Nat) (x : Extra) (e : Expr) : List Token := e.enclosed place x (e.body x)

/-- The text of a query. -/
def Expr.print (x : Extra) (e : Expr) : String := String.ofList (Token.spell (e.tokens 0 x))

/-! ## What can be printed -/

/-- Whether a literal can stand between quotes of one kind. -/
def Quotable (text : String) : Prop := '"' ∉ text.toList ∨ '\'' ∉ text.toList

/-- Whether a test asks for a name, if it does. -/
def NodeTest.Printable : NodeTest → Prop
  | named name => Token.isName name = true
  | _ => True

mutual

/-- The grammar has the query. -/
def Expr.Printable : Expr → Prop
  | .literal text => Quotable text
  | .number _ => True
  | .path absolute steps => (absolute = true ∨ steps ≠ []) ∧ StepsPrintable steps
  | .filter primary ps ss => (ps ≠ [] ∨ ss ≠ []) ∧ primary.Printable ∧ AllPrintable ps ∧ StepsPrintable ss
  | .binary _ left right => left.Printable ∧ right.Printable
  | .negate operand => operand.Printable
  | .union left right => left.Printable ∧ right.Printable
  | .call function arguments =>
    (Token.isName function = true ∧ function ≠ "text" ∧ function ≠ "node") ∧ AllPrintable arguments

/-- The grammar has the queries. -/
def AllPrintable : List Expr → Prop
  | [] => True
  | e :: es => e.Printable ∧ AllPrintable es

/-- The grammar has the step. -/
def Step.Printable : Step → Prop
  | .mk _ test ps => test.Printable ∧ AllPrintable ps

/-- The grammar has the steps. -/
def StepsPrintable : List Step → Prop
  | [] => True
  | s :: ss => s.Printable ∧ StepsPrintable ss

end

end Stencil.Query
