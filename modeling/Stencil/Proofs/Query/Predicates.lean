/-
  Predicates that are no places.

  A predicate is judged at a node and at the place that the node has among the others.  Most predicates look at
  the node alone: their value is no number, which would name a place, and no function in them asks for the place
  or the number of nodes (`Positional`).

    1. **A predicate within a predicate** has places of its own, so what is asked there does not count
       (`eval_placeless`).
    2. **Such predicates sort nodes one by one** — they leave exactly the nodes for which they hold
       (`narrow_eq_filter`), and so a path leads from some nodes to all that a chain of steps leads to
       (`mem_walk`).
-/
import Stencil.Proofs.Query.NodeSets

set_option autoImplicit false

namespace Stencil.Query

variable {t : Tree} {n m : NodeRef} {ns ms : List NodeRef} {e : Expr} {ps : List Expr} {ctx : Context}

/-! ## Places -/

mutual

/-- Whether a query has the same value at all places of a node. -/
def Expr.placeless : Expr → Bool
  | .literal _ | .number _ | .path .. => true
  | .filter primary _ _ => primary.placeless
  | .binary _ left right | .union left right => left.placeless && right.placeless
  | .negate operand => operand.placeless
  | .call function arguments => function != "position" && function != "last" && allPlaceless arguments

/-- Whether some queries all have the same value at all places of a node. -/
def allPlaceless : List Expr → Bool
  | [] => true
  | e :: es => e.placeless && allPlaceless es

end

/-- Whether the value of a query, if it has one, is a number. -/
def Expr.numeric : Expr → Bool
  | .number _ | .negate _ => true
  | .binary op _ _ => op.arithmetic?.isSome
  | .call function _ =>
    ["number", "count", "sum", "string-length", "position", "last", "floor", "ceiling", "round"].contains function
  | _ => false

/-- Whether a predicate names a place or asks for one. -/
def Expr.positional (e : Expr) : Bool := e.numeric || !e.placeless

/-- Only two functions look at the place. -/
theorem apply_place {function : String} {args : List Value} (hposition : function ≠ "position")
    (hlast : function ≠ "last") (place size place' size' : Nat) :
    apply t ⟨n, place, size⟩ function args = apply t ⟨n, place', size'⟩ function args := by
  unfold apply
  extract_lets text number truth nodeSet
  split
  all_goals first
    | rfl
    | exact absurd rfl hposition
    | exact absurd rfl hlast

theorem call_place {function : String} {args : List Value} (hposition : function ≠ "position")
    (hlast : function ≠ "last") (place size place' size' : Nat) :
    call t ⟨n, place, size⟩ function args = call t ⟨n, place', size'⟩ function args := by
  unfold call
  rw [apply_place hposition hlast place size place' size']

mutual

/-- A query that is not asked for the place does not see it. -/
theorem eval_placeless (n : NodeRef) (place size place' size' : Nat) :
    ∀ e : Expr, e.placeless = true → eval t e ⟨n, place, size⟩ = eval t e ⟨n, place', size'⟩
  | .literal _, _ => by rw [eval, eval]
  | .number _, _ => by rw [eval, eval]
  | .path absolute steps, _ => by rw [eval, eval]
  | .filter primary predicates steps, h => by
    rw [eval, eval, eval_placeless n place size place' size' primary h]
  | .binary op left right, h => by
    obtain ⟨hl, hr⟩ := Bool.and_eq_true_iff.mp h
    rw [eval, eval, eval_placeless n place size place' size' left hl,
      eval_placeless n place size place' size' right hr]
  | .negate operand, h => by
    rw [eval, eval, eval_placeless n place size place' size' operand h]
  | .union left right, h => by
    obtain ⟨hl, hr⟩ := Bool.and_eq_true_iff.mp h
    rw [eval, eval, eval_placeless n place size place' size' left hl,
      eval_placeless n place size place' size' right hr]
  | .call function arguments, h => by
    obtain ⟨h, harguments⟩ := Bool.and_eq_true_iff.mp h
    obtain ⟨hposition, hlast⟩ := Bool.and_eq_true_iff.mp h
    rw [eval, eval, evalAll_placeless n place size place' size' arguments harguments]
    refine congrArg _ (funext fun args => ?_)
    exact call_place (bne_iff_ne.mp hposition) (bne_iff_ne.mp hlast) place size place' size'

theorem evalAll_placeless (n : NodeRef) (place size place' size' : Nat) :
    ∀ es : List Expr, allPlaceless es = true → evalAll t es ⟨n, place, size⟩ = evalAll t es ⟨n, place', size'⟩
  | [], _ => by rw [evalAll, evalAll]
  | e :: es, h => by
    obtain ⟨he, hes⟩ := Bool.and_eq_true_iff.mp h
    rw [evalAll, evalAll, eval_placeless n place size place' size' e he,
      evalAll_placeless n place size place' size' es hes]

end

/-- The functions that give numbers are known. -/
theorem apply_number {function : String} {args : List Value} {x : Float}
    (h : apply t ctx function args = .ok (.number x)) : (Expr.call function []).numeric = true := by
  unfold apply at h
  extract_lets text number truth nodeSet at h
  split at h
  all_goals first
    | rfl
    | cases h
    | split at h <;> cases h

theorem numeric_of_eval {x : Float} (h : eval t e ctx = .ok (.number x)) : e.numeric = true := by
  cases e with
  | literal s => rw [eval] at h; cases h
  | number d => rfl
  | path absolute steps =>
    rw [eval] at h
    simp only [bind, Except.bind] at h
    split at h <;> cases h
  | filter primary predicates steps =>
    rw [eval] at h
    simp only [bind, Except.bind] at h
    split at h
    · cases h
    · split at h
      · split at h
        · cases h
        · split at h <;> cases h
      · cases h
  | binary op left right =>
    rw [eval] at h
    simp only [bind, Except.bind] at h
    split at h
    · cases h
    · split at h
      · split at h
        · cases h
        · split at h <;> cases h
      · split at h
        · split at h <;> cases h
        · cases h
      · split at h
        · cases h
        · split at h
          · rename_i hop
            rw [Expr.numeric, hop]
            rfl
          · cases h
  | negate operand => rfl
  | union left right =>
    rw [eval] at h
    simp only [bind, Except.bind] at h
    split at h
    · cases h
    · split at h
      · cases h
      · split at h <;> cases h
  | call function arguments =>
    rw [eval] at h
    simp only [bind, Except.bind] at h
    split at h
    · cases h
    · unfold call at h
      split at h
      · cases h
      · split at h
        · cases h
        · exact apply_number h

/-! ## Predicates -/

/-- Whether a predicate holds at a node, wherever that stands. -/
def Expr.holdsAt (t : Tree) (e : Expr) (n : NodeRef) : Bool :=
  match eval t e ⟨n, 1, 1⟩ with
  | .ok v => v.toTruth
  | .error _ => false

/-- A predicate that is not positional keeps a node for its truth. -/
theorem keeps_eq (he : e.positional = false) (place size : Nat) :
    (eval t e ⟨n, place, size⟩).map (Value.keeps place) = (eval t e ⟨n, 1, 1⟩).map Value.toTruth := by
  obtain ⟨hnumeric, hplaceless⟩ := Bool.or_eq_false_iff.mp he
  rw [Bool.not_eq_false'] at hplaceless
  rw [eval_placeless n place size 1 1 e hplaceless]
  cases hv : eval t e ⟨n, 1, 1⟩ with
  | error cause => rfl
  | ok v =>
    cases v with
    | number x =>
      rw [numeric_of_eval hv] at hnumeric
      cases hnumeric
    | nodes ns => rfl
    | text s => rfl
    | truth b => rfl

theorem keepFrom_eq_filter {holds : NodeRef → Except Cause Bool} {place : Nat}
    (h : keepFrom (fun n _ => holds n) place ns = .ok ms) : ms = ns.filter fun n => (holds n).toOption.getD false := by
  induction ns generalizing place ms with
  | nil =>
    cases h
    rfl
  | cons n ns ih =>
    rw [keepFrom] at h
    cases hn : holds n with
    | error cause => simp only [hn] at h; cases h
    | ok keep =>
      simp only [hn] at h
      cases hns : keepFrom (fun n _ => holds n) (place + 1) ns with
      | error cause => rw [hns] at h; cases h
      | ok kept =>
        rw [hns] at h
        cases h
        rw [List.filter_cons, hn, ih hns]
        rfl

theorem keepFrom_total {holds : NodeRef → Except Cause Bool} (h : ∀ n, ∃ keep, holds n = .ok keep) (place : Nat)
    (ns : List NodeRef) : ∃ ms, keepFrom (fun n _ => holds n) place ns = .ok ms := by
  induction ns generalizing place with
  | nil => exact ⟨[], rfl⟩
  | cons n ns ih =>
    obtain ⟨keep, hkeep⟩ := h n
    obtain ⟨kept, hkept⟩ := ih (place + 1)
    rw [keepFrom, hkeep]
    simp only [hkept]
    exact ⟨_, rfl⟩

/-- Predicates that are not positional leave the nodes for which they hold. -/
theorem narrow_eq_filter (hps : ∀ p ∈ ps, p.positional = false) (h : narrow t ps ns = .ok ms) :
    ms = ns.filter fun n => ps.all fun p => p.holdsAt t n := by
  induction ps generalizing ns with
  | nil =>
    rw [narrow] at h
    cases h
    exact (List.filter_eq_self.mpr fun n _ => rfl).symm
  | cons p ps ih =>
    rw [narrow] at h
    simp only [keeps_eq (hps p List.mem_cons_self)] at h
    cases hk : keepFrom (fun n _ => (eval t p ⟨n, 1, 1⟩).map Value.toTruth) 1 ns with
    | error cause => rw [hk] at h; cases h
    | ok kept =>
      rw [hk] at h
      rw [ih (fun q hq => hps q (List.mem_cons_of_mem p hq)) h, keepFrom_eq_filter hk, List.filter_filter]
      refine List.filter_congr fun n _ => ?_
      rw [List.all_cons, Bool.and_comm, Expr.holdsAt]
      cases eval t p ⟨n, 1, 1⟩ <;> rfl

theorem narrow_total (hps : ∀ p ∈ ps, p.positional = false) (htotal : ∀ p ∈ ps, ∀ n, ∃ v, eval t p ⟨n, 1, 1⟩ = .ok v)
    (ns : List NodeRef) : ∃ ms, narrow t ps ns = .ok ms := by
  induction ps generalizing ns with
  | nil => exact ⟨ns, by rw [narrow]⟩
  | cons p ps ih =>
    have hkeep : ∀ n, ∃ keep, (eval t p ⟨n, 1, 1⟩).map Value.toTruth = .ok keep := by
      intro n
      obtain ⟨v, hv⟩ := htotal p List.mem_cons_self n
      exact ⟨v.toTruth, by rw [hv]; rfl⟩
    obtain ⟨kept, hkept⟩ := keepFrom_total hkeep 1 ns
    obtain ⟨ms, hms⟩ := ih (fun q hq => hps q (List.mem_cons_of_mem p hq))
      (fun q hq => htotal q (List.mem_cons_of_mem p hq)) kept
    refine ⟨ms, ?_⟩
    rw [narrow]
    simp only [keeps_eq (hps p List.mem_cons_self), hkept]
    exact hms

/-! ## Paths -/

namespace Step

def axis : Step → Axis
  | .mk axis _ _ => axis

def predicates : Step → List Expr
  | .mk _ _ predicates => predicates

/-- Whether a step keeps a node that is on its axis. -/
def keeps (t : Tree) : Step → NodeRef → Bool
  | .mk axis test predicates, m => test.passes t axis m && predicates.all fun p => p.holdsAt t m

/-- The nodes on the axis of a step that it keeps. -/
def targets (t : Tree) (s : Step) (n : NodeRef) : List NodeRef := (s.axis.nodes t n).filter (s.keeps t)

/-- None of the predicates of a step is positional. -/
def Plain (s : Step) : Prop := ∀ p ∈ s.predicates, p.positional = false

end Step

/-- `m` is where steps lead from `n`: each goes on to a node on its axis that it keeps. -/
def Leads (t : Tree) : List Step → NodeRef → NodeRef → Prop
  | [], n, m => n = m
  | s :: ss, n, m => ∃ k, OnAxis t n k s.axis ∧ s.keeps t k = true ∧ Leads t ss k m

variable {s : Step} {ss : List Step}

theorem reach_eq_targets (hs : s.Plain) (h : reach t s n = .ok ms) : ms = s.targets t n := by
  obtain ⟨axis, test, predicates⟩ := s
  rw [reach] at h
  rw [narrow_eq_filter hs h, List.filter_filter]
  refine List.filter_congr fun m _ => ?_
  rw [Step.keeps, Bool.and_comm]
  rfl

theorem mapM_eq_map {ε α β : Type} {f : α → Except ε β} {g : α → β} (hf : ∀ x y, f x = .ok y → y = g x)
    {xs : List α} {ys : List β} (h : xs.mapM f = .ok ys) : ys = xs.map g := by
  have hall := forall₂_of_mapM h
  clear h
  induction hall with
  | nil => rfl
  | @cons x y _ _ hx _ ih => rw [List.map_cons, hf x y hx, ih]

/-- A step takes a path from some nodes to all their targets. -/
theorem walk_cons (hs : s.Plain) (h : walk t (s :: ss) ns = .ok ms) :
    walk t ss (ns.flatMap (s.targets t)).eraseDups = .ok ms := by
  rw [walk] at h
  cases hreached : ns.mapM (reach t s) with
  | error cause => rw [hreached] at h; cases h
  | ok reached =>
    rw [hreached] at h
    rw [List.flatMap_def, ← mapM_eq_map (fun n ms hn => reach_eq_targets hs hn) hreached]
    exact h

theorem reach_total (hs : s.Plain) (htotal : ∀ p ∈ s.predicates, ∀ n, ∃ v, eval t p ⟨n, 1, 1⟩ = .ok v) (n : NodeRef) :
    reach t s n = .ok (s.targets t n) := by
  obtain ⟨axis, test, predicates⟩ := s
  obtain ⟨ms, hms⟩ := narrow_total hs htotal ((axis.nodes t n).filter (test.passes t axis))
  have hreached : reach t (.mk axis test predicates) n = .ok ms := by
    rw [reach]
    exact hms
  rw [hreached, reach_eq_targets hs hreached]

theorem walk_total (hs : ∀ s ∈ ss, s.Plain)
    (htotal : ∀ s ∈ ss, ∀ p ∈ s.predicates, ∀ n, ∃ v, eval t p ⟨n, 1, 1⟩ = .ok v) (ns : List NodeRef) :
    ∃ ms, walk t ss ns = .ok ms := by
  induction ss generalizing ns with
  | nil => exact ⟨ns, by rw [walk]⟩
  | cons s ss ih =>
    have hreach := reach_total (hs s List.mem_cons_self) (htotal s List.mem_cons_self)
    have hmapM : ns.mapM (reach t s) = .ok (ns.map (s.targets t)) := by
      rw [funext hreach]
      exact List.mapM_pure
    obtain ⟨ms, hms⟩ := ih (fun s' hs' => hs s' (List.mem_cons_of_mem s hs'))
      (fun s' hs' => htotal s' (List.mem_cons_of_mem s hs')) (ns.map (s.targets t)).flatten.eraseDups
    refine ⟨ms, ?_⟩
    rw [walk, hmapM]
    exact hms

/-- The nodes that steps without positional predicates lead to. -/
theorem mem_walk (hwf : t.WellFormed) (hss : ∀ s ∈ ss, s.Plain) (h : walk t ss ns = .ok ms) :
    m ∈ ms ↔ ∃ n ∈ ns, Leads t ss n m := by
  induction ss generalizing ns with
  | nil =>
    rw [walk] at h
    cases h
    simp [Leads]
  | cons s ss ih =>
    have hs := hss s List.mem_cons_self
    rw [ih (fun s' hs' => hss s' (List.mem_cons_of_mem s hs')) (walk_cons hs h)]
    simp only [List.mem_eraseDups, List.mem_flatMap, Step.targets, List.mem_filter, mem_nodes hwf, Leads]
    constructor
    · rintro ⟨k, ⟨n, hn, haxis, hkeeps⟩, hm⟩
      exact ⟨n, hn, k, haxis, hkeeps, hm⟩
    · rintro ⟨n, hn, k, haxis, hkeeps, hm⟩
      exact ⟨k, ⟨n, hn, haxis, hkeeps⟩, hm⟩

end Stencil.Query
