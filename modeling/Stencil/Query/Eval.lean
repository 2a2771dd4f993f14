/-
  The value of a query at a node.

  A location path goes on from its nodes step by step; what two nodes both reach is kept once, where it
  is reached first.  Predicates narrow what one node reaches, so positions count along the axis.

  `Query.evaluate` and `Query.select` read a query and give its text, or the nodes it selects.
-/
import Stencil.Query.Axis
import Stencil.Query.Parser

set_option autoImplicit false

namespace Stencil.Query

open Stencil.Text (quote words)

/-- Where a query is evaluated: at a node, which is one of several. -/
structure Context where
  /-- The node. -/
  node : NodeRef
  /-- Its place among the nodes that are being narrowed, from 1. -/
  position : Nat
  /-- The number of those nodes. -/
  size : Nat

/-! ## Operators -/

/-- The result of an operator on numbers. -/
def Operator.arithmetic? : Operator → Option (Float → Float → Float)
  | add => some (· + ·)
  | subtract => some (· - ·)
  | multiply => some (· * ·)
  | divide => some (· / ·)
  | modulo => some Number.remainder
  | _ => none

/-- Whether a comparison holds between single values. -/
def Operator.holdsBetween (t : Tree) (op : Operator) (a b : Value) : Bool :=
  match op with
  | equal => a.atomsEqual t b
  | notEqual => !a.atomsEqual t b
  | less => a.toNumber t < b.toNumber t
  | lessEqual => a.toNumber t ≤ b.toNumber t
  | greater => a.toNumber t > b.toNumber t
  | _ => a.toNumber t ≥ b.toNumber t

/-- Whether a comparison holds: between the truths of the values if one is a truth value, else between
    some single values that stand for them. -/
def Operator.holds (t : Tree) (op : Operator) (a b : Value) : Bool :=
  match a, b with
  | .truth _, _ | _, .truth _ => op.holdsBetween t (.truth a.toTruth) (.truth b.toTruth)
  | _, _ => (a.atoms t).any fun x => (b.atoms t).any fun y => op.holdsBetween t x y

/-! ## Functions -/

/-- Limits of the number of arguments that a function takes. -/
structure Arity where
  /-- The least number. -/
  least : Nat
  /-- The greatest number. -/
  most : Nat

/-- The functions and their arities. -/
def arity? : String → Option Arity
  | "string" | "number" | "string-length" | "normalize-space" | "name" | "local-name" => some ⟨0, 1⟩
  | "boolean" | "not" | "count" | "sum" | "floor" | "ceiling" | "round" => some ⟨1, 1⟩
  | "true" | "false" | "position" | "last" => some ⟨0, 0⟩
  | "contains" | "starts-with" => some ⟨2, 2⟩
  | "substring" => some ⟨2, 3⟩
  | "concat" => some ⟨2, 18446744073709551615⟩
  | _ => none

/-- Whether a text begins with another at some place. -/
def containsText (part : List Char) : List Char → Bool
  | [] => part.isEmpty
  | c :: cs => part.isPrefixOf (c :: cs) || containsText part cs

/-- The characters whose places, from 1, are at least `start` and less than `stop`. -/
def substring (cs : List Char) (start stop : Float) : List Char :=
  (cs.zipIdx 1).filterMap fun (c, i) =>
    if Float.ofNat i ≥ start && Float.ofNat i < stop then some c else none

/-- The value of a function at a node, for a number of arguments that it takes. -/
def apply (t : Tree) (ctx : Context) (function : String) (args : List Value) :
    Except Cause Value :=
  let text (i : Nat) : String :=
    match args[i]? with
    | some v => v.toText t
    | none => ctx.node.stringValue t
  let number (i : Nat) : Float :=
    match args[i]? with
    | some v => v.toNumber t
    | none => Value.numberOfText (ctx.node.stringValue t)
  let truth (i : Nat) : Bool := (args[i]?.map Value.toTruth).getD false
  let nodeSet : Except Cause (List NodeRef) :=
    match args with
    | .nodes ns :: _ => .ok ns
    | _ => .error (.nodesExpected function)
  match function with
  | "string" => .ok (.text (text 0))
  | "number" => .ok (.number (number 0))
  | "boolean" => .ok (.truth (truth 0))
  | "not" => .ok (.truth (!truth 0))
  | "true" => .ok (.truth true)
  | "false" => .ok (.truth false)
  | "count" => nodeSet.map fun ns => .number (Float.ofNat ns.length)
  | "sum" =>
    nodeSet.map fun ns =>
      .number ((ns.map fun n => Value.numberOfText (n.stringValue t)).foldl (· + ·) (-0.0))
  | "concat" => .ok (.text (String.join (args.map fun v => v.toText t)))
  | "string-length" => .ok (.number (Float.ofNat (text 0).length))
  | "normalize-space" => .ok (.text (" ".intercalate (words (text 0))))
  | "contains" => .ok (.truth (containsText (text 1).toList (text 0).toList))
  | "starts-with" => .ok (.truth ((text 1).toList.isPrefixOf (text 0).toList))
  | "substring" =>
    let start := (number 1).round
    let stop := if args.length < 3 then 1.0 / 0.0 else start + (number 2).round
    .ok (.text (String.ofList (substring (text 0).toList start stop)))
  | "position" => .ok (.number (Float.ofNat ctx.position))
  | "last" => .ok (.number (Float.ofNat ctx.size))
  | "name" | "local-name" =>
    match args with
    | [] => .ok (.text (ctx.node.name t))
    | .nodes ns :: _ => .ok (.text ((ns.head?.map fun n => n.name t).getD ""))
    | _ => .error (.nodesExpected function)
  | "floor" => .ok (.number (number 0).floor)
  | "ceiling" => .ok (.number (number 0).ceil)
  | "round" => .ok (.number (number 0 + 0.5).floor)
  | _ => .error (.unknownFunction function)

/-- The value of a call, which fails for another number of arguments than the function takes. -/
def call (t : Tree) (ctx : Context) (function : String) (args : List Value) : Except Cause Value :=
  match arity? function with
  | none => .error (.unknownFunction function)
  | some a =>
    if args.length < a.least ∨ a.most < args.length then
      .error (.arity function a.least a.most args.length)
    else apply t ctx function args

/-! ## Evaluation -/

/-- The nodes that satisfy a condition on the node and its place; the places begin with `place`. -/
def keepFrom (holds : NodeRef → Nat → Except Cause Bool) (place : Nat) :
    List NodeRef → Except Cause (List NodeRef)
  | [] => .ok []
  | n :: ns =>
    match holds n place with
    | .error e => .error e
    | .ok keep =>
      match keepFrom holds (place + 1) ns with
      | .error e => .error e
      | .ok kept => .ok (if keep then n :: kept else kept)

/-- Whether the value of a predicate keeps the node at a place: a number names the place, any other
    value is taken for its truth. -/
def Value.keeps (place : Nat) : Value → Bool
  | number x => x == Float.ofNat place
  | v => v.toTruth

mutual

/-- The value of a query. -/
def eval (t : Tree) : Expr → Context → Except Cause Value
  | .literal s, _ => .ok (.text s)
  | .number d, _ => .ok (.number d.toFloat)
  | .path absolute steps, ctx => do
    let start := if absolute then ctx.node.documentOf t else ctx.node
    return .nodes (← walk t steps [start])
  | .filter primary predicates steps, ctx => do
    match ← eval t primary ctx with
    | .nodes ns => return .nodes (← walk t steps (← narrow t predicates ns))
    | _ => throw .pathOnValue
  | .binary op left right, ctx => do
    let a ← eval t left ctx
    match op with
    | .or => if a.toTruth then return .truth true else return .truth (← eval t right ctx).toTruth
    | .and => if a.toTruth then return .truth (← eval t right ctx).toTruth else return .truth false
    | op =>
      let b ← eval t right ctx
      match op.arithmetic? with
      | some f => return .number (f (a.toNumber t) (b.toNumber t))
      | none => return .truth (op.holds t a b)
  | .negate operand, ctx => do return .number (-(← eval t operand ctx).toNumber t)
  | .union left right, ctx => do
    let a ← eval t left ctx
    let b ← eval t right ctx
    match a, b with
    | .nodes ms, .nodes ns => return .nodes (ms ++ ns).eraseDups
    | _, _ => throw .unionOnValue
  | .call function arguments, ctx => do call t ctx function (← evalAll t arguments ctx)

/-- The values of queries at one node. -/
def evalAll (t : Tree) : List Expr → Context → Except Cause (List Value)
  | [], _ => .ok []
  | e :: es, ctx => do
    let v ← eval t e ctx
    return v :: (← evalAll t es ctx)

/-- The nodes that steps lead to from some nodes. -/
def walk (t : Tree) : List Step → List NodeRef → Except Cause (List NodeRef)
  | [], ns => .ok ns
  | s :: ss, ns => do walk t ss (← ns.mapM (reach t s)).flatten.eraseDups

/-- The nodes that a step leads to from one node. -/
def reach (t : Tree) : Step → NodeRef → Except Cause (List NodeRef)
  | .mk axis test predicates, n =>
    narrow t predicates ((axis.nodes t n).filter (test.passes t axis))

/-- The nodes that predicates leave, each judged among what the one before left. -/
def narrow (t : Tree) : List Expr → List NodeRef → Except Cause (List NodeRef)
  | [], ns => .ok ns
  | p :: ps, ns => do
    let kept ← keepFrom
      (fun n place => (eval t p ⟨n, place, ns.length⟩).map (Value.keeps place)) 1 ns
    narrow t ps kept

end

/-! ## Queries as texts -/

/-- The value of a query at a node. -/
def run (t : Tree) (node : NodeRef) (source : String) : Except Error Value :=
  match Expr.parse source with
  | .error fault => .error (.of (.query fault source))
  | .ok e =>
    match eval t e ⟨node, 1, 1⟩ with
    | .error cause => .error ((Error.of cause).locate ("expression " ++ quote source))
    | .ok v => .ok v

/-- The text of a query at a node. -/
def evaluate (t : Tree) (node : NodeRef) (source : String) : Except Error String :=
  (run t node source).map (Value.toText t)

/-- The nodes that a query selects at a node. -/
def select (t : Tree) (node : NodeRef) (source : String) : Except Error (List NodeRef) :=
  match run t node source with
  | .error e => .error e
  | .ok (.nodes ns) => .ok ns
  | .ok _ => .error (.of (.notNodes source))

/-- The elements that a query selects at a node. -/
def selectElements (t : Tree) (node : NodeRef) (source : String) : Except Error (List NodeId) :=
  (select t node source).map fun ns => ns.filterMap NodeRef.element?

end Stencil.Query
