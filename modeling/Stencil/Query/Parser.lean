/-
  Reading path queries.

  The grammar, loosest operators first:

    or  <  and  <  = !=  <  <= < >= >  <  + -  <  * div mod  <  unary minus  <  |  <  paths

  Operators of one level group to the left.  A path starts with a literal, a number, a parenthesis or a
  function call and may be narrowed and continued, or it is a location path.

  Each function takes an allowance of calls and gives what it has read with the tokens behind it.  A
  function that is called before a token is taken is one of a dozen, so `allowance` is enough for every
  query.
-/
import Stencil.Query.Expr
import Stencil.Query.Token

set_option autoImplicit false

namespace Stencil.Query

namespace Parser

/-- The operators that stand between operands of one level, with their tokens. -/
abbrev Level := List (Token × Operator)

/-- The levels of operators between two operands, loosest first. -/
def levels : List Level :=
  [[(.or, .or)],
   [(.and, .and)],
   [(.equal, .equal), (.notEqual, .notEqual)],
   [(.lessEqual, .lessEqual), (.less, .less), (.greaterEqual, .greaterEqual), (.greater, .greater)],
   [(.plus, .add), (.minus, .subtract)],
   [(.multiply, .multiply), (.div, .divide), (.mod, .modulo)]]

/-- The operator of a level that comes next, with the tokens behind it. -/
def operator? (level : Level) : List Token → Option (Operator × List Token)
  | [] => none
  | t :: ts => (level.find? fun p => p.1 == t).map fun p => (p.2, ts)

/-- Takes one token, which must come next. -/
def expect (t : Token) : List Token → Except QueryFault (List Token)
  | u :: ts => if u = t then .ok ts else .error (.expected t.written)
  | [] => .error (.expected t.written)

/-- Whether a path that comes next is continued from something other than a location path. -/
def startsFilter : List Token → Bool
  | .literal _ :: _ => true
  | .number _ :: _ => true
  | .leftParen :: _ => true
  | .name n :: .leftParen :: _ => n != "text" && n != "node"
  | _ => false

/-- Whether a step comes next. -/
def startsStep : List Token → Bool
  | .dot :: _ | .dotDot :: _ | .atSign :: _ | .star :: _ | .name _ :: _ => true
  | _ => false

/-- Reads the axis of a step; a step without one goes to the children. -/
def axis : List Token → Except QueryFault (Axis × List Token)
  | .atSign :: ts => .ok (.attributes, ts)
  | .name n :: .doubleColon :: ts =>
    match Axis.ofName? n with
    | some a => .ok (a, ts)
    | none => .error (.unsupportedAxis n)
  | ts => .ok (.child, ts)

/-- Reads the test of a step. -/
def nodeTest : List Token → Except QueryFault (NodeTest × List Token)
  | .star :: ts => .ok (.any, ts)
  | .name n :: .leftParen :: ts =>
    if n = "text" then (expect .rightParen ts).map fun ts => (.text, ts)
    else if n = "node" then (expect .rightParen ts).map fun ts => (.node, ts)
    else .ok (.named n, .leftParen :: ts)
  | .name n :: ts => .ok (.named n, ts)
  | ts => .error (.expectedNodeTest (Token.writtenNext ts.head?))

/-- The fault when the allowance is used up, which `allowance` rules out. -/
def usedUp {α : Type} : Except QueryFault (α × List Token) :=
  .error (.unexpected "end of allowance")

mutual

/-- Reads a query of some level and the tighter ones. -/
def binary (fuel : Nat) (ls : List Level) (ts : List Token) : Except QueryFault (Expr × List Token) :=
  match fuel, ls with
  | 0, _ => usedUp
  | n + 1, [] => unary n ts
  | n + 1, l :: ls => do
    let (left, ts) ← binary n ls ts
    binaryRest n l ls left ts

/-- Reads the operators of a level, and their right operands, behind a left operand. -/
def binaryRest (fuel : Nat) (l : Level) (ls : List Level) (left : Expr) (ts : List Token) :
    Except QueryFault (Expr × List Token) :=
  match fuel with
  | 0 => usedUp
  | n + 1 =>
    match operator? l ts with
    | none => .ok (left, ts)
    | some (op, ts) => do
      let (right, ts) ← binary n ls ts
      binaryRest n l ls (.binary op left right) ts

/-- Reads a query without operators between operands. -/
def unary (fuel : Nat) (ts : List Token) : Except QueryFault (Expr × List Token) :=
  match fuel with
  | 0 => usedUp
  | n + 1 =>
    match ts with
    | .minus :: ts => do
      let (e, ts) ← unary n ts
      return (.negate e, ts)
    | _ => do
      let (left, ts) ← path n ts
      unionRest n left ts

/-- Reads the rest of a union behind its left operand. -/
def unionRest (fuel : Nat) (left : Expr) (ts : List Token) : Except QueryFault (Expr × List Token) :=
  match fuel with
  | 0 => usedUp
  | n + 1 =>
    match ts with
    | .pipe :: ts => do
      let (right, ts) ← path n ts
      unionRest n (.union left right) ts
    | _ => .ok (left, ts)

/-- Reads a path. -/
def path (fuel : Nat) (ts : List Token) : Except QueryFault (Expr × List Token) :=
  match fuel with
  | 0 => usedUp
  | n + 1 =>
    if startsFilter ts then do
      let (e, ts) ← primary n ts
      let (ps, ts) ← predicates n ts
      let (ss, ts) ← moreSteps n ts
      return (if ps.isEmpty && ss.isEmpty then e else .filter e ps ss, ts)
    else locationPath n ts

/-- Reads what a filter narrows and continues. -/
def primary (fuel : Nat) (ts : List Token) : Except QueryFault (Expr × List Token) :=
  match fuel with
  | 0 => usedUp
  | n + 1 =>
    match ts with
    | .literal s :: ts => .ok (.literal s, ts)
    | .number d :: ts => .ok (.number d, ts)
    | .leftParen :: ts => do
      let (e, ts) ← binary n levels ts
      return (e, ← expect .rightParen ts)
    | .name f :: .leftParen :: .rightParen :: ts => .ok (.call f [], ts)
    | .name f :: .leftParen :: ts => do
      let (args, ts) ← arguments n ts
      return (.call f args, ts)
    | _ => .error (.unexpected (Token.writtenNext ts.head?))

/-- Reads the arguments of a function, one at least, and the closing parenthesis. -/
def arguments (fuel : Nat) (ts : List Token) : Except QueryFault (List Expr × List Token) :=
  match fuel with
  | 0 => usedUp
  | n + 1 => do
    let (e, ts) ← binary n levels ts
    match ts with
    | .rightParen :: ts => return ([e], ts)
    | _ => do
      let (es, ts) ← arguments n (← expect .comma ts)
      return (e :: es, ts)

/-- Reads a location path. -/
def locationPath (fuel : Nat) (ts : List Token) : Except QueryFault (Expr × List Token) :=
  match fuel with
  | 0 => usedUp
  | n + 1 =>
    match ts with
    | .slash :: ts => do
      if startsStep ts then
        let (s, ts) ← step n ts
        let (ss, ts) ← moreSteps n ts
        return (.path true (s :: ss), ts)
      else
        let (ss, ts) ← moreSteps n ts
        return (.path true ss, ts)
    | .doubleSlash :: ts => do
      let (s, ts) ← step n ts
      let (ss, ts) ← moreSteps n ts
      return (.path true (.toward .descendantOrSelf :: s :: ss), ts)
    | _ => do
      let (s, ts) ← step n ts
      let (ss, ts) ← moreSteps n ts
      return (.path false (s :: ss), ts)

/-- Reads steps that follow slashes. -/
def moreSteps (fuel : Nat) (ts : List Token) : Except QueryFault (List Step × List Token) :=
  match fuel with
  | 0 => usedUp
  | n + 1 =>
    match ts with
    | .slash :: ts => do
      let (s, ts) ← step n ts
      let (ss, ts) ← moreSteps n ts
      return (s :: ss, ts)
    | .doubleSlash :: ts => do
      let (s, ts) ← step n ts
      let (ss, ts) ← moreSteps n ts
      return (.toward .descendantOrSelf :: s :: ss, ts)
    | _ => .ok ([], ts)

/-- Reads a step.  The points stand for whole steps and take no predicates. -/
def step (fuel : Nat) (ts : List Token) : Except QueryFault (Step × List Token) :=
  match fuel with
  | 0 => usedUp
  | n + 1 =>
    match ts with
    | .dot :: ts => .ok (.toward .self, ts)
    | .dotDot :: ts => .ok (.toward .parent, ts)
    | _ => do
      let (a, ts) ← axis ts
      let (t, ts) ← nodeTest ts
      let (ps, ts) ← predicates n ts
      return (.mk a t ps, ts)

/-- Reads predicates. -/
def predicates (fuel : Nat) (ts : List Token) : Except QueryFault (List Expr × List Token) :=
  match fuel with
  | 0 => usedUp
  | n + 1 =>
    match ts with
    | .leftBracket :: ts => do
      let (p, ts) ← binary n levels ts
      let (ps, ts) ← predicates n (← expect .rightBracket ts)
      return (p :: ps, ts)
    | _ => .ok ([], ts)

end

/-- An allowance of calls that is enough for so many tokens. -/
def allowance (tokens : Nat) : Nat := 16 * (tokens + 2)

/-- Reads a whole query. -/
def parseTokens (ts : List Token) : Except QueryFault Expr :=
  match binary (allowance ts.length) levels ts with
  | .error e => .error e
  | .ok (e, []) => .ok e
  | .ok (_, t :: _) => .error (.unexpected t.written)

end Parser

/-- Reads a query. -/
def Expr.parse (source : String) : Except QueryFault Expr :=
  match Token.ofString source with
  | .error e => .error e
  | .ok ts => Parser.parseTokens ts

end Stencil.Query
