/-
  What can go wrong in a query.

  A query fails for one of seven causes: its text is none, it names a function that there is not, a call has a wrong number
  of arguments, or nodes are wanted and something else is given.  Evaluation is by the syntax of the query, and so is the
  proof: wherever two steps follow one another, the cause is that of one of them (`Faults.bind`).
-/
import Stencil.Query.Eval

set_option autoImplicit false

namespace Stencil

/-- Whether a cause is that of a query. -/
def Cause.ofQuery : Cause → Bool
  | .query .. | .notNodes .. | .pathOnValue | .unionOnValue | .arity .. | .nodesExpected .. | .unknownFunction .. => true
  | _ => false

namespace Query

variable {α β : Type} {t : Tree} {ns : List NodeRef} {ctx : Context}

/-- All failures are those of a query. -/
def Faults (r : Except Cause α) : Prop := ∀ c, r = .error c → c.ofQuery = true

namespace Faults

theorem ok (a : α) : Faults (.ok a) := fun _ h => nomatch h

theorem error {c : Cause} (h : c.ofQuery = true) : Faults (.error c : Except Cause α) := fun _ hc => by
  cases hc
  exact h

theorem bind {r : Except Cause α} {f : α → Except Cause β} (h : Faults r) (hf : ∀ a, Faults (f a)) : Faults (r >>= f) := by
  cases r with
  | ok a => exact hf a
  | error e => exact .error (h e rfl)

theorem map {r : Except Cause α} (h : Faults r) (f : α → β) : Faults (r.map f) := by
  cases r with
  | ok a => exact .ok _
  | error e => exact .error (h e rfl)

theorem mapM {f : α → Except Cause β} (xs : List α) (hf : ∀ a, Faults (f a)) : Faults (xs.mapM f) := by
  induction xs with
  | nil => exact .ok _
  | cons x xs ih =>
    rw [List.mapM_cons]
    exact (hf x).bind fun _ => ih.bind fun _ => .ok _

end Faults

/-- An argument that is no set of nodes is the fault of the query. -/
theorem faults_nodeSet (function : String) (args : List Value) :
    Faults (match args with
      | .nodes ns :: _ => .ok ns
      | _ => .error (.nodesExpected function) : Except Cause (List NodeRef)) := by
  split
  · exact .ok _
  · exact .error rfl

theorem faults_call (t : Tree) (ctx : Context) (function : String) (args : List Value) :
    Faults (call t ctx function args) := by
  unfold call
  split
  · exact .error rfl
  · split
    · exact .error rfl
    · unfold apply
      dsimp only
      split
      case h_7 => exact (faults_nodeSet _ args).map _
      case h_8 => exact (faults_nodeSet _ args).map _
      case h_17 | h_18 =>
        split
        · exact .ok _
        · exact .ok _
        · exact .error rfl
      case h_22 => exact .error rfl
      all_goals exact .ok _

theorem faults_keepFrom {holds : NodeRef → Nat → Except Cause Bool} (h : ∀ n place, Faults (holds n place)) (place : Nat)
    (ns : List NodeRef) : Faults (keepFrom holds place ns) := by
  induction ns generalizing place with
  | nil => exact .ok _
  | cons n ns ih =>
    rw [keepFrom]
    split
    · rename_i c hc
      exact .error (h n place c hc)
    · split
      · rename_i c hc
        exact .error (ih _ c hc)
      · exact .ok _

mutual

/-- Evaluation fails only as queries do. -/
theorem faults_eval (t : Tree) : ∀ (e : Expr) (ctx : Context), Faults (eval t e ctx)
  | .literal s, _ => .ok _
  | .number d, _ => .ok _
  | .path absolute steps, ctx => by
    rw [eval]
    exact (faults_walk t steps _).bind fun _ => .ok _
  | .filter primary predicates steps, ctx => by
    rw [eval]
    refine (faults_eval t primary ctx).bind fun v => ?_
    split
    · exact (faults_narrow t predicates _).bind fun _ => (faults_walk t steps _).bind fun _ => .ok _
    · exact .error rfl
  | .binary op left right, ctx => by
    rw [eval]
    refine (faults_eval t left ctx).bind fun a => ?_
    split
    · split
      · exact .ok _
      · exact (faults_eval t right ctx).bind fun _ => .ok _
    · split
      · exact (faults_eval t right ctx).bind fun _ => .ok _
      · exact .ok _
    · refine (faults_eval t right ctx).bind fun b => ?_
      split <;> exact .ok _
  | .negate operand, ctx => by
    rw [eval]
    exact (faults_eval t operand ctx).bind fun _ => .ok _
  | .union left right, ctx => by
    rw [eval]
    refine (faults_eval t left ctx).bind fun a => (faults_eval t right ctx).bind fun b => ?_
    split
    · exact .ok _
    · exact .error rfl
  | .call function arguments, ctx => by
    rw [eval]
    exact (faults_evalAll t arguments ctx).bind fun args => faults_call t ctx function args

theorem faults_evalAll (t : Tree) : ∀ (es : List Expr) (ctx : Context), Faults (evalAll t es ctx)
  | [], _ => .ok _
  | e :: es, ctx => by
    rw [evalAll]
    exact (faults_eval t e ctx).bind fun _ => (faults_evalAll t es ctx).bind fun _ => .ok _

theorem faults_walk (t : Tree) : ∀ (ss : List Step) (ns : List NodeRef), Faults (walk t ss ns)
  | [], _ => .ok _
  | s :: ss, ns => by
    rw [walk]
    exact (Faults.mapM ns (faults_reach t s)).bind fun _ => faults_walk t ss _

theorem faults_reach (t : Tree) : ∀ (s : Step) (n : NodeRef), Faults (reach t s n)
  | .mk axis test predicates, n => by
    rw [reach]
    exact faults_narrow t predicates _

theorem faults_narrow (t : Tree) : ∀ (ps : List Expr) (ns : List NodeRef), Faults (narrow t ps ns)
  | [], _ => .ok _
  | p :: ps, ns => by
    rw [narrow]
    exact (faults_keepFrom (fun n place => (faults_eval t p _).map _) 1 ns).bind fun _ => faults_narrow t ps _

end

theorem cause_of_run {n : NodeRef} {source : String} {e : Error} (h : run t n source = .error e) :
    e.cause.ofQuery = true := by
  unfold run at h
  split at h
  · cases h
    rfl
  · split at h
    · rename_i c hc
      cases h
      rw [Error.cause_locate]
      exact faults_eval t _ _ c hc
    · cases h

/-- A query for a text fails only as queries do. -/
theorem cause_of_evaluate {n : NodeRef} {source : String} {e : Error} (h : evaluate t n source = .error e) :
    e.cause.ofQuery = true := by
  unfold evaluate at h
  cases hr : run t n source with
  | ok v =>
    rw [hr] at h
    cases h
  | error c =>
    rw [hr] at h
    cases h
    exact cause_of_run hr

/-- A query for nodes fails only as queries do. -/
theorem cause_of_select {n : NodeRef} {source : String} {e : Error} (h : select t n source = .error e) :
    e.cause.ofQuery = true := by
  unfold select at h
  split at h
  · rename_i c hc
    cases h
    exact cause_of_run hc
  · cases h
  · cases h
    rfl

end Query

end Stencil
