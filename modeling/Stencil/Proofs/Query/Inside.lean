/-
  A query stays in its document.

  No axis leads from one document into another, predicates only leave nodes out, and no function makes
  nodes.  So what a query selects at a document are nodes of that document (`select_inside`), and a rule
  that replaces what a query has selected changes nothing in any other document.
-/
import Mathlib.Data.List.Forall2
import Stencil.Proofs.Tree.Ancestry
import Stencil.Query.Eval

set_option autoImplicit false

namespace Stencil.Query

open Stencil.Tree (Under)

variable {t : Tree} {root : NodeId} {n m : NodeRef} {ns ms : List NodeRef}

/-! ## Axes -/

/-- The root of a node's document is where its chain of parents ends. -/
theorem rootOf_of_under (hwf : t.WellFormed) (hr : t.parent? root = none) {id : NodeId}
    (h : Under t root id) : t.rootOf id = root := by
  induction h with
  | self =>
    unfold Tree.rootOf
    rw [Tree.ancestors_of_root hr]
    rfl
  | @child p c hp hu ih =>
    unfold Tree.rootOf at ih ⊢
    rw [hwf.ancestors_of_parent hp]
    cases ha : t.ancestors p with
    | nil =>
      rw [ha] at ih
      exact ih
    | cons a as =>
      rw [ha, List.getLast?_eq_some_getLast (List.cons_ne_nil a as)] at ih
      rw [List.getLast?_cons_cons, List.getLast?_eq_some_getLast (List.cons_ne_nil a as)]
      exact ih

namespace NodeRef

/-- A node of the document with some root. -/
def Inside (t : Tree) (root : NodeId) (n : NodeRef) : Prop := Under t root n.anchor

theorem inside_children (hwf : t.WellFormed) (hn : n.Inside t root) (hm : m ∈ n.children t) :
    m.Inside t root := by
  cases n with
  | document id =>
    rw [children, List.mem_singleton] at hm
    rw [hm]
    exact hn
  | element id =>
    rw [children, List.mem_append] at hm
    rcases hm with hm | hm
    · split at hm
      · cases hm
      · rw [List.mem_singleton.mp hm]
        exact hn
    · obtain ⟨c, hc, rfl⟩ := List.mem_map.mp hm
      exact .child (hwf.mem_children.mp hc) hn
  | attr id name => cases hm
  | text id => cases hm

theorem inside_parent? (hr : t.parent? root = none) (hn : n.Inside t root)
    (hm : n.parent? t = some m) : m.Inside t root := by
  cases n with
  | document id => cases hm
  | element id =>
    rw [parent?] at hm
    cases hp : t.parent? id with
    | none =>
      rw [hp] at hm
      cases hm
      exact hn
    | some p =>
      rw [hp] at hm
      cases hm
      refine Under.of_parent hp hn ?_
      rintro rfl
      rw [hr] at hp
      cases hp
  | attr id name => cases hm; exact hn
  | text id => cases hm; exact hn

theorem inside_descendantsWithin (hwf : t.WellFormed) (hn : n.Inside t root) {d : Nat}
    (hm : m ∈ n.descendantsWithin t d) : m.Inside t root := by
  induction d generalizing n with
  | zero => cases hm
  | succ d ih =>
    rw [descendantsWithin] at hm
    obtain ⟨c, hc, hm⟩ := List.mem_flatMap.mp hm
    have hci := inside_children hwf hn hc
    rcases List.mem_cons.mp hm with rfl | hm
    · exact hci
    · exact ih hci hm

theorem inside_ancestorsWithin (hr : t.parent? root = none) (hn : n.Inside t root) {d : Nat}
    (hm : m ∈ n.ancestorsWithin t d) : m.Inside t root := by
  induction d generalizing n with
  | zero => cases hm
  | succ d ih =>
    unfold ancestorsWithin at hm
    split at hm
    · rename_i p hp
      have hpi := inside_parent? hr hn hp
      rcases List.mem_cons.mp hm with rfl | hm
      · exact hpi
      · exact ih hpi hm
    · cases hm

/-- Siblings stand in one document. -/
theorem inside_sibling (hwf : t.WellFormed) (hr : t.parent? root = none) {id p c : NodeId}
    (hn : Under t root id) (hp : t.parent? id = some p) (hc : c ∈ t.children p) : Under t root c := by
  refine .child (hwf.mem_children.mp hc) (hn.of_parent hp ?_)
  rintro rfl
  rw [hr] at hp
  cases hp

theorem parent?_of_position? {id p : NodeId} {i : Nat} (h : t.position? id = some (p, i)) :
    t.parent? id = some p := by
  unfold Tree.position? at h
  split at h
  · cases h
  · rename_i q hq
    rw [hq]
    obtain ⟨j, -, hj⟩ := Option.map_eq_some_iff.mp h
    cases hj
    rfl

theorem inside_followingSiblings (hwf : t.WellFormed) (hr : t.parent? root = none)
    (hn : n.Inside t root) (hm : m ∈ n.followingSiblings t) : m.Inside t root := by
  cases n with
  | element id =>
    obtain ⟨c, hc, rfl⟩ := List.mem_map.mp hm
    unfold Tree.followingSiblings at hc
    split at hc
    · rename_i p i hp
      exact inside_sibling hwf hr hn (parent?_of_position? hp) (List.mem_of_mem_drop hc)
    · cases hc
  | document id => cases hm
  | attr id name => cases hm
  | text id => cases hm

theorem inside_precedingSiblings (hwf : t.WellFormed) (hr : t.parent? root = none)
    (hn : n.Inside t root) (hm : m ∈ n.precedingSiblings t) : m.Inside t root := by
  cases n with
  | element id =>
    obtain ⟨c, hc, rfl⟩ := List.mem_map.mp hm
    unfold Tree.precedingSiblings at hc
    split at hc
    · rename_i p i hp
      exact inside_sibling hwf hr hn (parent?_of_position? hp)
        (List.mem_of_mem_take (List.mem_reverse.mp hc))
    · cases hc
  | document id => cases hm
  | attr id name => cases hm
  | text id => cases hm

theorem inside_attributes (hn : n.Inside t root) (hm : m ∈ n.attributes t) : m.Inside t root := by
  cases n with
  | element id =>
    obtain ⟨name, -, rfl⟩ := List.mem_map.mp hm
    exact hn
  | document id => cases hm
  | attr id name => cases hm
  | text id => cases hm

theorem inside_documentOf (hwf : t.WellFormed) (hr : t.parent? root = none)
    (hn : n.Inside t root) : (n.documentOf t).Inside t root := by
  unfold documentOf Inside
  rw [rootOf_of_under hwf hr hn]
  exact .self

end NodeRef

open NodeRef

/-- No axis leaves the document. -/
theorem inside_axis (hwf : t.WellFormed) (hr : t.parent? root = none) (hn : n.Inside t root)
    {axis : Axis} (hm : m ∈ axis.nodes t n) : m.Inside t root := by
  cases axis with
  | child => exact inside_children hwf hn hm
  | descendant => exact inside_descendantsWithin hwf hn hm
  | descendantOrSelf =>
    rcases List.mem_cons.mp hm with rfl | hm
    · exact hn
    · exact inside_descendantsWithin hwf hn hm
  | self => rw [List.mem_singleton.mp hm]; exact hn
  | parent => exact inside_parent? hr hn (by simpa [Axis.nodes] using hm)
  | ancestor => exact inside_ancestorsWithin hr hn hm
  | ancestorOrSelf =>
    rcases List.mem_cons.mp hm with rfl | hm
    · exact hn
    · exact inside_ancestorsWithin hr hn hm
  | attributes => exact inside_attributes hn hm
  | followingSibling => exact inside_followingSiblings hwf hr hn hm
  | precedingSibling => exact inside_precedingSiblings hwf hr hn hm

/-! ## Evaluation -/

theorem keepFrom_sublist {holds : NodeRef → Nat → Except Cause Bool} {place : Nat}
    (h : keepFrom holds place ns = .ok ms) : ms.Sublist ns := by
  induction ns generalizing place ms with
  | nil =>
    cases h
    exact .refl _
  | cons n ns ih =>
    unfold keepFrom at h
    split at h
    · cases h
    · split at h
      · cases h
      · rename_i kept hkept
        cases h
        have hsub := ih hkept
        split
        · exact hsub.cons_cons n
        · exact hsub.cons n

/-- Predicates only leave nodes out. -/
theorem narrow_sublist {predicates : List Expr} (h : narrow t predicates ns = .ok ms) : ms.Sublist ns := by
  induction predicates generalizing ns with
  | nil =>
    rw [narrow] at h
    cases h
    exact .refl _
  | cons p ps ih =>
    rw [narrow] at h
    cases hk : keepFrom (fun n place => (eval t p ⟨n, place, ns.length⟩).map (Value.keeps place)) 1 ns with
    | error e => rw [hk] at h; cases h
    | ok kept =>
      rw [hk] at h
      exact (ih h).trans (keepFrom_sublist hk)

theorem inside_reach (hwf : t.WellFormed) (hr : t.parent? root = none) (hn : n.Inside t root)
    {s : Step} (h : reach t s n = .ok ms) : ∀ m ∈ ms, m.Inside t root := by
  obtain ⟨axis, test, predicates⟩ := s
  rw [reach] at h
  intro m hm
  exact inside_axis hwf hr hn (List.mem_filter.mp ((narrow_sublist h).subset hm)).1

/-- Values that have all been worked out, one by one. -/
theorem forall₂_of_mapM {ε α β : Type} {f : α → Except ε β} {xs : List α} {ys : List β}
    (h : xs.mapM f = .ok ys) : List.Forall₂ (fun x y => f x = .ok y) xs ys := by
  induction xs generalizing ys with
  | nil =>
    cases h
    exact .nil
  | cons x xs ih =>
    rw [List.mapM_cons] at h
    cases hx : f x with
    | error e => rw [hx] at h; cases h
    | ok y =>
      cases hxs : xs.mapM f with
      | error e => rw [hx, hxs] at h; cases h
      | ok zs =>
        rw [hx, hxs] at h
        cases h
        exact .cons hx (ih hxs)

theorem mapM_ok {ε α β : Type} {f : α → Except ε β} {xs : List α} {ys : List β}
    (h : xs.mapM f = .ok ys) : ∀ y ∈ ys, ∃ x ∈ xs, f x = .ok y := by
  have hall := forall₂_of_mapM h
  clear h
  induction hall with
  | nil =>
    intro y hy
    cases hy
  | @cons x z xs zs hx _ ih =>
    intro y hy
    rcases List.mem_cons.mp hy with rfl | hy
    · exact ⟨x, List.mem_cons_self, hx⟩
    · obtain ⟨x', hx', hf⟩ := ih y hy
      exact ⟨x', List.mem_cons_of_mem x hx', hf⟩

theorem apply_ne_nodes {ctx : Context} {function : String} {args : List Value} :
    apply t ctx function args ≠ .ok (.nodes ns) := by
  intro h
  unfold apply at h
  extract_lets text number truth nodeSet at h
  split at h
  -- most functions give one value; `count` and `sum` ask for nodes, `name` looks at its arguments
  all_goals first
    | cases h
    | cases hs : nodeSet <;> rw [hs] at h <;> cases h
    | split at h <;> cases h

theorem call_ne_nodes {ctx : Context} {function : String} {args : List Value} :
    call t ctx function args ≠ .ok (.nodes ns) := by
  unfold call
  split
  · exact fun h => (nomatch h)
  · split
    · exact fun h => (nomatch h)
    · exact apply_ne_nodes

/-- A property of sets of nodes that evaluation keeps: when nodes are left out, when a step is taken from each
    node, and when two sets are put together. -/
structure Kept (t : Tree) (Q : List NodeRef → Prop) : Prop where
  fewer : ∀ {ms ns}, ms.Sublist ns → Q ns → Q ms
  step : ∀ {s ns reached}, ns.mapM (reach t s) = .ok reached → Q ns → Q reached.flatten.eraseDups
  union : ∀ {ms ns}, Q ms → Q ns → Q (ms ++ ns).eraseDups

namespace Kept

variable {Q : List NodeRef → Prop}

theorem walk (hq : Kept t Q) {steps : List Step} (hns : Q ns) (h : walk t steps ns = .ok ms) : Q ms := by
  induction steps generalizing ns with
  | nil =>
    rw [Query.walk] at h
    cases h
    exact hns
  | cons s ss ih =>
    rw [Query.walk] at h
    cases hs : ns.mapM (reach t s) with
    | error e => rw [hs] at h; cases h
    | ok reached =>
      rw [hs] at h
      exact ih (hq.step hs hns) h

/-- What is kept, and holds where a path begins, holds of every set of nodes that a query has as its value. -/
theorem eval (hq : Kept t Q) : ∀ {e : Expr} {ctx : Context} {ns : List NodeRef}, Q [ctx.node] →
    Q [ctx.node.documentOf t] → eval t e ctx = .ok (.nodes ns) → Q ns
  | .literal _, _, _, _, _, h => by rw [Query.eval] at h; cases h
  | .number _, _, _, _, _, h => by rw [Query.eval] at h; cases h
  | .path absolute steps, ctx, ns, hnode, hdoc, h => by
    rw [Query.eval] at h
    cases hw : Query.walk t steps [if absolute = true then ctx.node.documentOf t else ctx.node] with
    | error e => simp only [hw] at h; cases h
    | ok ms =>
      simp only [hw] at h
      cases h
      refine hq.walk ?_ hw
      split
      · exact hdoc
      · exact hnode
  | .filter primary predicates steps, ctx, ns, hnode, hdoc, h => by
    rw [Query.eval] at h
    cases hp : Query.eval t primary ctx with
    | error e => rw [hp] at h; cases h
    | ok v =>
      rw [hp] at h
      cases v with
      | nodes ps =>
        have hps := hq.eval hnode hdoc hp
        cases hk : narrow t predicates ps with
        | error e => simp only [bind, Except.bind, hk] at h; cases h
        | ok kept =>
          cases hw : Query.walk t steps kept with
          | error e => simp only [bind, Except.bind, hk, hw] at h; cases h
          | ok ms =>
            simp only [bind, Except.bind, hk, hw] at h
            cases h
            exact hq.walk (hq.fewer (narrow_sublist hk) hps) hw
      | text s => cases h
      | number x => cases h
      | truth b => cases h
  | .binary op left right, ctx, ns, _, _, h => by
    rw [Query.eval] at h
    cases hl : Query.eval t left ctx with
    | error e => rw [hl] at h; cases h
    | ok a =>
      cases hrt : Query.eval t right ctx with
      | error e =>
        rw [hl] at h
        simp only [bind, Except.bind, hrt] at h
        split at h
        · split at h <;> cases h
        · split at h <;> cases h
        · cases h
      | ok b =>
        rw [hl] at h
        simp only [bind, Except.bind, hrt] at h
        split at h
        · split at h <;> cases h
        · split at h <;> cases h
        · split at h <;> cases h
  | .negate operand, ctx, ns, _, _, h => by
    rw [Query.eval] at h
    cases ho : Query.eval t operand ctx with
    | error e => rw [ho] at h; cases h
    | ok v => rw [ho] at h; cases h
  | .union left right, ctx, ns, hnode, hdoc, h => by
    rw [Query.eval] at h
    cases hl : Query.eval t left ctx with
    | error e => rw [hl] at h; cases h
    | ok a =>
      cases hrt : Query.eval t right ctx with
      | error e => rw [hl, hrt] at h; cases h
      | ok b =>
        rw [hl, hrt] at h
        simp only [bind, Except.bind] at h
        split at h
        · cases h
          exact hq.union (hq.eval hnode hdoc hl) (hq.eval hnode hdoc hrt)
        · cases h
  | .call function arguments, ctx, ns, _, _, h => by
    rw [Query.eval] at h
    cases ha : evalAll t arguments ctx with
    | error e => rw [ha] at h; cases h
    | ok args =>
      rw [ha] at h
      exact absurd h call_ne_nodes

end Kept

/-- To stand in a document is kept. -/
theorem kept_inside (hwf : t.WellFormed) (hr : t.parent? root = none) :
    Kept t fun ns => ∀ n ∈ ns, n.Inside t root where
  fewer := fun hsub hns n hn => hns n (hsub.subset hn)
  step := by
    intro s ns reached hs hns m hm
    obtain ⟨l, hl, hm⟩ := List.mem_flatten.mp (List.mem_eraseDups.mp hm)
    obtain ⟨n, hn, hreach⟩ := mapM_ok hs l hl
    exact inside_reach hwf hr (hns n hn) hreach m hm
  union := by
    intro ms ns hms hns n hn
    rcases List.mem_append.mp (List.mem_eraseDups.mp hn) with hn | hn
    · exact hms n hn
    · exact hns n hn

/-- The nodes that a query at a node of a document computes are nodes of the document. -/
theorem inside_eval (hwf : t.WellFormed) (hr : t.parent? root = none) {e : Expr} {ctx : Context}
    (hctx : ctx.node.Inside t root) (h : eval t e ctx = .ok (.nodes ns)) : ∀ n ∈ ns, n.Inside t root := by
  refine (kept_inside hwf hr).eval ?_ ?_ h
  · exact fun n hn => List.mem_singleton.mp hn ▸ hctx
  · exact fun n hn => List.mem_singleton.mp hn ▸ inside_documentOf hwf hr hctx

/-- What a query selects at a document stands in it. -/
theorem select_inside (hwf : t.WellFormed) (hr : t.parent? root = none) {source : String}
    (h : select t (.document root) source = .ok ns) : ∀ n ∈ ns, n.Inside t root := by
  unfold select run at h
  split at h
  · cases h
  · rename_i ms heq
    cases h
    split at heq
    · cases heq
    · split at heq
      · cases heq
      · rename_i v hv
        cases heq
        have hctx : (Context.mk (.document root) 1 1).node.Inside t root := Under.self
        exact inside_eval hwf hr hctx hv
  · cases h

end Stencil.Query
