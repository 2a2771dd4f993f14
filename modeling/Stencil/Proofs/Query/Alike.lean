/-
  A query sees the document, not the slots it stands in.

  Where two trees hold the same document (`Tree.Alike`), a query at a node of one and at the node that
  stands for it in the other have the same value (`eval_map`): the same text, or nodes that stand for
  each other, or the same failure.  Each axis, each test and each function is compared by itself; the
  induction over queries puts them together.
-/
import Stencil.Proofs.Query.Inside
import Stencil.Proofs.Tree.Alike

set_option autoImplicit false

namespace Stencil.Query

open Stencil.Tree (Under Closed Alike)

variable {t t' : Tree} {P : NodeId → Prop} {f : NodeId → NodeId} {n m : NodeRef} {ns ms : List NodeRef}
  {id : NodeId}

theorem eraseDups_map {α β : Type} [BEq α] [LawfulBEq α] [BEq β] [LawfulBEq β] {g : α → β} : ∀ {xs : List α},
    (∀ x ∈ xs, ∀ y ∈ xs, g x = g y → x = y) → (xs.map g).eraseDups = xs.eraseDups.map g
  | [], _ => rfl
  | x :: xs, hinj => by
    have hsub : ∀ y ∈ xs.filter fun y => !y == x, y ∈ x :: xs :=
      fun y hy => List.mem_cons_of_mem x (List.mem_filter.mp hy).1
    have hrest : ((xs.filter fun y => !y == x).map g).eraseDups = (xs.filter fun y => !y == x).eraseDups.map g :=
      eraseDups_map fun y hy z hz => hinj y (hsub y hy) z (hsub z hz)
    rw [List.map_cons, List.eraseDups_cons, List.eraseDups_cons, List.map_cons, List.filter_map, ← hrest]
    refine congrArg (fun l => g x :: (l.map g).eraseDups) (List.filter_congr fun y hy => ?_)
    rw [Function.comp_apply, Bool.eq_iff_iff]
    simp only [Bool.not_eq_true', beq_eq_false_iff_ne, ne_eq]
    exact not_congr ⟨fun he => hinj y (List.mem_cons_of_mem x hy) x List.mem_cons_self he, fun he => he ▸ rfl⟩
termination_by xs => xs.length
decreasing_by
  rw [List.length_cons]
  exact Nat.lt_succ_of_le (List.length_filter_le _ _)

/-! ## Nodes -/

namespace NodeRef

/-- The node that stands for a node. -/
def map (f : NodeId → NodeId) : NodeRef → NodeRef
  | document id => document (f id)
  | element id => element (f id)
  | attr id name => attr (f id) name
  | text id => text (f id)

@[simp] theorem anchor_map : (n.map f).anchor = f n.anchor := by cases n <;> rfl

theorem map_injective (h : Alike P f t t') (hn : P n.anchor) (hm : P m.anchor)
    (he : n.map f = m.map f) : n = m := by
  cases n <;> cases m <;> simp only [map, reduceCtorEq, document.injEq, element.injEq, attr.injEq,
    text.injEq] at he ⊢
  · exact h.injective _ _ hn hm he
  · exact h.injective _ _ hn hm he
  · exact ⟨h.injective _ _ hn hm he.1, he.2⟩
  · exact h.injective _ _ hn hm he

/-! ## Axes -/

theorem descendantsWithin_element (hwf : t.WellFormed) {k : Nat}
    (hk : t.nodes.size ≤ k + (t.ancestors id).length) :
    (element id).descendantsWithin t (k + 2) = (element id).descendantsWithin t (k + 1) := by
  induction k generalizing id with
  | zero =>
    have hc := hwf.children_of_full (n := id) (by omega)
    by_cases ht : (t.text id).isEmpty
    · simp [descendantsWithin, children, hc, ht]
    · simp [descendantsWithin, children, hc, ht]
  | succ k ih =>
    rw [descendantsWithin]
    conv => rhs; rw [descendantsWithin]
    refine congrArg List.flatten (List.map_congr_left fun m hm => ?_)
    rw [children, List.mem_append] at hm
    rcases hm with hm | hm
    · split at hm
      · cases hm
      · rw [List.mem_singleton.mp hm]
        rfl
    · obtain ⟨c, hc, rfl⟩ := List.mem_map.mp hm
      rw [ih ?_]
      rw [hwf.ancestors_of_parent (hwf.mem_children.mp hc), List.length_cons]
      omega

theorem descendants_element (hwf : t.WellFormed) (id : NodeId) :
    (element id).descendants t
      = (if (t.text id).isEmpty then [] else [text id])
        ++ (t.children id).flatMap fun c => element c :: (element c).descendants t := by
  unfold descendants
  rw [← descendantsWithin_element (k := t.nodes.size + 1) hwf (by omega), descendantsWithin, children,
    List.flatMap_append, List.flatMap_map]
  congr 1
  split <;> rfl

theorem descendants_document (hwf : t.WellFormed) (id : NodeId) :
    (document id).descendants t = element id :: (element id).descendants t := by
  unfold descendants
  rw [descendantsWithin_element (k := t.nodes.size) hwf (by omega), descendantsWithin, children]
  exact List.append_nil _

theorem ancestorsWithin_element (hwf : t.WellFormed) {k : Nat} (hk : (t.ancestors id).length < k) :
    (element id).ancestorsWithin t k = (t.ancestors id).map element ++ [document (t.rootOf id)] := by
  induction k generalizing id with
  | zero => exact absurd hk (Nat.not_lt_zero _)
  | succ k ih =>
    rw [ancestorsWithin, parent?]
    cases hp : t.parent? id with
    | none =>
      have ha := Tree.ancestors_of_root hp
      simp only
      rw [Tree.rootOf, ha]
      cases k <;> rfl
    | some p =>
      have ha := hwf.ancestors_of_parent hp
      have hroot : t.rootOf id = t.rootOf p := by
        unfold Tree.rootOf
        rw [ha, List.getLast?_cons]
        cases (t.ancestors p).getLast? <;> rfl
      rw [ha, List.length_cons] at hk
      simp only
      rw [ih (by omega), ha, hroot]
      rfl

theorem length_ancestors_le (hwf : t.WellFormed) (id : NodeId) :
    (t.ancestors id).length ≤ t.nodes.size := by
  by_cases hl : t.Live id
  · exact Nat.le_of_lt (hwf.length_ancestorsWithin_lt hl _)
  · rw [Tree.ancestors_of_root (hwf.bare hl).2]
    exact Nat.zero_le _

theorem ancestors_element (hwf : t.WellFormed) (id : NodeId) :
    (element id).ancestors t = (t.ancestors id).map element ++ [document (t.rootOf id)] := by
  have hle := length_ancestors_le hwf id
  exact ancestorsWithin_element hwf (by omega)

/-- What belongs to an element stands below it. -/
theorem ancestors_of_parent_element (hwf : t.WellFormed) (hp : n.parent? t = some (element id)) :
    n.ancestors t = element id :: (element id).ancestors t := by
  have hle := length_ancestors_le hwf id
  unfold ancestors
  rw [ancestorsWithin_element hwf (by omega)]
  rw [ancestorsWithin, hp]
  simp only
  rw [ancestorsWithin_element hwf (by omega)]

section
variable (h : Alike P f t t')
include h

theorem children_map (hn : P n.anchor) : (n.map f).children t' = (n.children t).map (map f) := by
  cases n with
  | element id =>
    have hn : P id := hn
    simp only [map, children, h.text hn, h.children id hn, List.map_append, List.map_map]
    congr 1
    split <;> rfl
  | _ => rfl

theorem parent?_map (hn : P n.anchor) : (n.map f).parent? t' = (n.parent? t).map (map f) := by
  cases n with
  | element id =>
    have hn : P id := hn
    simp only [map, parent?, h.parent? id hn]
    cases t.parent? id <;> rfl
  | _ => rfl

theorem descendants_element_map (hn : P id) :
    (element (f id)).descendants t' = ((element id).descendants t).map (map f) := by
  revert hn
  refine h.wellFormed.induction_below (motive := fun id => P id →
    (element (f id)).descendants t' = ((element id).descendants t).map (map f)) (fun id ih hn => ?_) id
  rw [descendants_element h.copy_wellFormed, descendants_element h.wellFormed, h.text hn, h.children id hn,
    List.flatMap_map, List.map_append, List.map_flatMap]
  congr 1
  · split <;> rfl
  · refine congrArg List.flatten (List.map_congr_left fun c hc => ?_)
    rw [ih c hc (h.closed.child h.wellFormed hn hc)]
    rfl

theorem descendants_map (hn : P n.anchor) : (n.map f).descendants t' = (n.descendants t).map (map f) := by
  cases n with
  | document id =>
    have hn : P id := hn
    rw [map, descendants_document h.copy_wellFormed, descendants_document h.wellFormed,
      descendants_element_map h hn]
    rfl
  | element id => exact descendants_element_map h hn
  | _ => rfl

theorem ancestors_element_map (hn : P id) :
    (element (f id)).ancestors t' = ((element id).ancestors t).map (map f) := by
  rw [ancestors_element h.copy_wellFormed, ancestors_element h.wellFormed, h.ancestors hn, h.rootOf hn,
    List.map_append, List.map_map, List.map_map]
  rfl

theorem ancestors_map (hn : P n.anchor) : (n.map f).ancestors t' = (n.ancestors t).map (map f) := by
  cases n with
  | document id => rfl
  | element id => exact ancestors_element_map h hn
  | attr id name =>
    have hn : P id := hn
    have hp : (attr id name).parent? t = some (element id) := rfl
    have hp' : (attr (f id) name).parent? t' = some (element (f id)) := rfl
    rw [map, ancestors_of_parent_element h.wellFormed hp, ancestors_of_parent_element h.copy_wellFormed hp',
      ancestors_element_map h hn]
    rfl
  | text id =>
    have hn : P id := hn
    have hp : (text id).parent? t = some (element id) := rfl
    have hp' : (text (f id)).parent? t' = some (element (f id)) := rfl
    rw [map, ancestors_of_parent_element h.wellFormed hp, ancestors_of_parent_element h.copy_wellFormed hp',
      ancestors_element_map h hn]
    rfl

theorem attributes_map (hn : P n.anchor) : (n.map f).attributes t' = (n.attributes t).map (map f) := by
  cases n with
  | element id =>
    have hn : P id := hn
    have hnames : t'.attributeNames (f id) = t.attributeNames id := by
      unfold Tree.attributeNames
      rw [h.computed hn, h.attrs hn]
    simp only [map, attributes, hnames, List.map_map]
    rfl
  | _ => rfl

theorem followingSiblings_map (hn : P n.anchor) :
    (n.map f).followingSiblings t' = (n.followingSiblings t).map (map f) := by
  cases n with
  | element id =>
    have hn : P id := hn
    simp only [map, followingSiblings, h.followingSiblings hn, List.map_map]
    rfl
  | _ => rfl

theorem precedingSiblings_map (hn : P n.anchor) :
    (n.map f).precedingSiblings t' = (n.precedingSiblings t).map (map f) := by
  cases n with
  | element id =>
    have hn : P id := hn
    simp only [map, precedingSiblings, h.precedingSiblings hn, List.map_map]
    rfl
  | _ => rfl

theorem documentOf_map (hn : P n.anchor) : (n.map f).documentOf t' = (n.documentOf t).map f := by
  rw [documentOf, documentOf, anchor_map, h.rootOf hn, map]

theorem documentOf_mem (hn : P n.anchor) : P (n.documentOf t).anchor :=
  h.rootOf_mem hn

theorem stringValue_map (hn : P n.anchor) : (n.map f).stringValue t' = n.stringValue t := by
  cases n with
  | document id => exact h.stringValue hn
  | element id => exact h.stringValue hn
  | attr id name =>
    have hn : P id := hn
    simp only [map, stringValue, Tree.attribute?, h.computed hn, h.attr? hn]
  | text id => exact h.text hn

theorem name_map (hn : P n.anchor) : (n.map f).name t' = n.name t := by
  cases n with
  | element id => exact h.name hn
  | _ => rfl

end

end NodeRef

open NodeRef

/-- Every node stands below a root. -/
theorem exists_root (hwf : t.WellFormed) (id : NodeId) : ∃ r, t.parent? r = none ∧ Under t r id := by
  refine hwf.induction_above (motive := fun id => ∃ r, t.parent? r = none ∧ Under t r id)
    (fun id ih => ?_) id
  cases hp : t.parent? id with
  | none => exact ⟨id, hp, .self⟩
  | some p =>
    obtain ⟨r, hr, hu⟩ := ih p hp
    exact ⟨r, hr, .child hp hu⟩

/-- Whole documents that hold a node hold the document it belongs to. -/
theorem exists_document (hwf : t.WellFormed) (hc : Closed t P) (hn : P id) :
    ∃ r, t.parent? r = none ∧ Under t r id ∧ ∀ m : NodeRef, m.Inside t r → P m.anchor := by
  obtain ⟨r, hr, hu⟩ := exists_root hwf id
  exact ⟨r, hr, hu, fun m hm => hc.below (hc.toUpward.of_under hu hn) hm⟩

section
variable (h : Alike P f t t')
include h

theorem axis_map (hn : P n.anchor) (axis : Axis) :
    axis.nodes t' (n.map f) = (axis.nodes t n).map (map f) := by
  cases axis with
  | child => exact children_map h hn
  | descendant => exact descendants_map h hn
  | descendantOrSelf =>
    rw [Axis.nodes, Axis.nodes, descendants_map h hn, List.map_cons]
  | self => rfl
  | parent =>
    rw [Axis.nodes, Axis.nodes, parent?_map h hn]
    cases n.parent? t <;> rfl
  | ancestor => exact ancestors_map h hn
  | ancestorOrSelf =>
    rw [Axis.nodes, Axis.nodes, ancestors_map h hn, List.map_cons]
  | attributes => exact attributes_map h hn
  | followingSibling => exact followingSiblings_map h hn
  | precedingSibling => exact precedingSiblings_map h hn

theorem axis_mem (hn : P n.anchor) {axis : Axis} (hm : m ∈ axis.nodes t n) : P m.anchor := by
  obtain ⟨r, hr, hu, hin⟩ := exists_document h.wellFormed h.closed hn
  exact hin m (inside_axis h.wellFormed hr hu hm)

theorem passes_map (hn : P n.anchor) (axis : Axis) (test : NodeTest) :
    test.passes t' axis (n.map f) = test.passes t axis n := by
  cases n with
  | element id =>
    have hn : P id := hn
    cases test <;> simp only [map, NodeTest.passes, h.name hn]
  | _ => cases test <;> rfl

end

/-! ## Values -/

namespace Value

/-- The value that stands for a value. -/
def map (f : NodeId → NodeId) : Value → Value
  | nodes ns => nodes (ns.map (NodeRef.map f))
  | text s => text s
  | number x => number x
  | truth b => truth b

/-- The nodes of a value are among those of `P`. -/
def In (P : NodeId → Prop) : Value → Prop
  | nodes ns => ∀ n ∈ ns, P n.anchor
  | _ => True

/-- A value without nodes. -/
def Plain : Value → Prop
  | nodes _ => False
  | _ => True

variable {v w : Value}

theorem Plain.mem (hv : v.Plain) : v.In P := by
  cases v with
  | nodes ns => exact hv.elim
  | _ => trivial

theorem plain_of_mem_atoms (hw : w ∈ v.atoms t) : w.Plain := by
  cases v with
  | nodes ns =>
    obtain ⟨n, _, rfl⟩ := List.mem_map.mp hw
    trivial
  | _ =>
    rw [List.mem_singleton.mp hw]
    trivial

@[simp] theorem toTruth_map : (v.map f).toTruth = v.toTruth := by
  cases v with
  | nodes ns => cases ns <;> rfl
  | _ => rfl

@[simp] theorem keeps_map (place : Nat) : (v.map f).keeps place = v.keeps place := by
  cases v with
  | nodes ns => cases ns <;> rfl
  | _ => rfl

section
variable (h : Alike P f t t')
include h

theorem toText_map (hv : v.In P) : (v.map f).toText t' = v.toText t := by
  cases v with
  | nodes ns =>
    cases ns with
    | nil => rfl
    | cons n ns => exact stringValue_map h (hv n List.mem_cons_self)
  | _ => rfl

theorem toNumber_map (hv : v.In P) : (v.map f).toNumber t' = v.toNumber t := by
  cases v with
  | nodes ns =>
    have ht := toText_map h hv
    simp only [map] at ht
    simp only [map, toNumber, ht]
  | _ => rfl

theorem atoms_map (hv : v.In P) : (v.map f).atoms t' = v.atoms t := by
  cases v with
  | nodes ns =>
    simp only [map, atoms, List.map_map]
    exact List.map_congr_left fun n hn => congrArg text (stringValue_map h (hv n hn))
  | _ => rfl

end

theorem atomsEqual_plain (hv : v.Plain) (hw : w.Plain) : v.atomsEqual t' w = v.atomsEqual t w := by
  cases v <;> cases w <;> first | exact hv.elim | exact hw.elim | rfl

end Value

variable {v w : Value}

theorem holdsBetween_plain (op : Operator) (hv : v.Plain) (hw : w.Plain) :
    op.holdsBetween t' v w = op.holdsBetween t v w := by
  have heq : v.atomsEqual t' w = v.atomsEqual t w := Value.atomsEqual_plain hv hw
  have hnum : ∀ u : Value, u.Plain → u.toNumber t' = u.toNumber t := by
    intro u hu
    cases u with
    | nodes ns => exact hu.elim
    | _ => rfl
  cases op <;> simp only [Operator.holdsBetween, heq, hnum v hv, hnum w hw]

section
variable (h : Alike P f t t')
include h

theorem holds_map (op : Operator) (hv : v.In P) (hw : w.In P) :
    op.holds t' (v.map f) (w.map f) = op.holds t v w := by
  have hany : ((v.map f).atoms t').any (fun x => ((w.map f).atoms t').any fun y => op.holdsBetween t' x y)
      = (v.atoms t).any fun x => (w.atoms t).any fun y => op.holdsBetween t x y := by
    rw [Value.atoms_map h hv, Value.atoms_map h hw, Bool.eq_iff_iff, List.any_eq_true, List.any_eq_true]
    refine exists_congr fun x => and_congr_right fun hx => ?_
    rw [List.any_eq_true, List.any_eq_true]
    refine exists_congr fun y => and_congr_right fun hy => ?_
    rw [holdsBetween_plain op (Value.plain_of_mem_atoms hx) (Value.plain_of_mem_atoms hy)]
  have htruth : op.holdsBetween t' (.truth v.toTruth) (.truth w.toTruth)
      = op.holdsBetween t (.truth v.toTruth) (.truth w.toTruth) :=
    holdsBetween_plain op trivial trivial
  cases v <;> cases w <;> first | exact hany | skip
  all_goals simp only [Value.map, Operator.holds, Value.toTruth, List.isEmpty_map] at htruth ⊢
  all_goals exact htruth

/-! ## Functions -/

/-- The context that stands for a context. -/
def Context.map (f : NodeId → NodeId) (ctx : Context) : Context := { ctx with node := ctx.node.map f }

variable {ctx : Context} {args : List Value}

theorem numbers_map (hns : ∀ n ∈ ns, P n.anchor) :
    (ns.map (NodeRef.map f)).map (fun n => Value.numberOfText (n.stringValue t'))
      = ns.map fun n => Value.numberOfText (n.stringValue t) := by
  rw [List.map_map]
  refine List.map_congr_left fun n hn => ?_
  rw [Function.comp_apply, stringValue_map h (hns n hn)]

theorem firstName_map (hns : ∀ n ∈ ns, P n.anchor) :
    (ns.map (NodeRef.map f)).head?.map (fun n => n.name t') = ns.head?.map fun n => n.name t := by
  cases ns with
  | nil => rfl
  | cons n ns => exact congrArg some (name_map h (hns n List.mem_cons_self))

theorem texts_map (hargs : ∀ v ∈ args, v.In P) :
    (args.map (Value.map f)).map (fun v => v.toText t') = args.map fun v => v.toText t := by
  rw [List.map_map]
  exact List.map_congr_left fun v hv => Value.toText_map h (hargs v hv)

theorem apply_map (hctx : P ctx.node.anchor) (hargs : ∀ v ∈ args, v.In P) (function : String) :
    apply t' (ctx.map f) function (args.map (Value.map f)) = apply t ctx function args := by
  unfold apply
  extract_lets text' number' truth' nodes' start' stop' text number truth nodes start stop
  have htext : text' = text := by
    funext i
    simp only [text, text', List.getElem?_map]
    cases hv : args[i]? with
    | none => exact stringValue_map h hctx
    | some v => exact Value.toText_map h (hargs v (List.mem_of_getElem? hv))
  have hnumber : number' = number := by
    funext i
    simp only [number, number', List.getElem?_map]
    cases hv : args[i]? with
    | none =>
      show Value.numberOfText _ = Value.numberOfText _
      rw [Context.map, stringValue_map h hctx]
    | some v => exact Value.toNumber_map h (hargs v (List.mem_of_getElem? hv))
  have htruth : truth' = truth := by
    funext i
    simp only [truth, truth', List.getElem?_map, Option.map_map]
    cases args[i]? with
    | none => rfl
    | some v => exact Value.toTruth_map
  have hstart : start' = start := by simp only [start, start', hnumber]
  have hstop : stop' = stop := by simp only [stop, stop', hstart, hnumber, List.length_map]
  rw [htext, hnumber, htruth, hstart, hstop, texts_map h hargs]
  clear_value text' number' truth' start' stop' text number truth start stop
  -- what is left looks at the first argument: `count`, `sum` and `name`
  cases args with
  | nil => simp only [nodes, nodes', List.map_nil, Except.map, Context.map, name_map h hctx]
  | cons v vs =>
    cases v with
    | nodes ns =>
      have hns : ∀ n ∈ ns, P n.anchor := hargs _ List.mem_cons_self
      simp only [nodes, nodes', List.map_cons, Value.map, Except.map, List.length_map, numbers_map h hns,
        firstName_map h hns, Context.map]
    | _ => simp only [nodes, nodes', List.map_cons, Value.map, Except.map, Context.map]

theorem call_map (hctx : P ctx.node.anchor) (hargs : ∀ v ∈ args, v.In P) (function : String) :
    call t' (ctx.map f) function (args.map (Value.map f)) = (call t ctx function args).map (Value.map f) := by
  have happly : (call t ctx function args).map (Value.map f) = call t ctx function args := by
    cases hc : call t ctx function args with
    | error e => rfl
    | ok v =>
      cases v with
      | nodes ns => exact absurd hc call_ne_nodes
      | _ => rfl
  rw [happly, call, call, List.length_map, apply_map h hctx hargs]

/-! ## Queries -/

theorem eraseDups_nodes_map (hns : ∀ n ∈ ns, P n.anchor) :
    (ns.map (NodeRef.map f)).eraseDups = ns.eraseDups.map (NodeRef.map f) :=
  eraseDups_map fun n hn m hm he => map_injective h (hns n hn) (hns m hm) he

theorem eval_mem {e : Expr} {v : Value} (hctx : P ctx.node.anchor) (hv : eval t e ctx = .ok v) : v.In P := by
  cases v with
  | nodes ns =>
    obtain ⟨r, hr, hu, hin⟩ := exists_document h.wellFormed h.closed hctx
    exact fun n hn => hin n (inside_eval h.wellFormed hr hu hv n hn)
  | _ => trivial

theorem evalAll_mem : ∀ {es : List Expr} {vs : List Value}, P ctx.node.anchor → evalAll t es ctx = .ok vs →
    ∀ v ∈ vs, v.In P
  | [], vs, _, hvs => by
    rw [evalAll] at hvs
    cases hvs
    intro v hv
    cases hv
  | e :: es, vs, hctx, hvs => by
    rw [evalAll] at hvs
    cases he : eval t e ctx with
    | error c => rw [he] at hvs; cases hvs
    | ok v =>
      cases hes : evalAll t es ctx with
      | error c => rw [he, hes] at hvs; cases hvs
      | ok ws =>
        rw [he, hes] at hvs
        cases hvs
        intro w hw
        rcases List.mem_cons.mp hw with rfl | hw
        · exact eval_mem h hctx he
        · exact evalAll_mem hctx hes w hw

theorem reach_mem {s : Step} (hn : P n.anchor) (hr : reach t s n = .ok ms) : ∀ m ∈ ms, P m.anchor := by
  obtain ⟨r, hroot, hu, hin⟩ := exists_document h.wellFormed h.closed hn
  exact fun m hm => hin m (inside_reach h.wellFormed hroot hu hr m hm)

omit h in
theorem keepFrom_map {holds holds' : NodeRef → Nat → Except Cause Bool} {place : Nat}
    (heq : ∀ n ∈ ns, ∀ place, holds' (n.map f) place = holds n place) :
    keepFrom holds' place (ns.map (NodeRef.map f))
      = (keepFrom holds place ns).map (List.map (NodeRef.map f)) := by
  induction ns generalizing place with
  | nil => rfl
  | cons n ns ih =>
    rw [List.map_cons, keepFrom, keepFrom, heq n List.mem_cons_self,
      ih fun m hm => heq m (List.mem_cons_of_mem n hm)]
    cases holds n place with
    | error e => rfl
    | ok keep =>
      cases keepFrom holds (place + 1) ns with
      | error e => rfl
      | ok kept => cases keep <;> rfl

omit h in
/-- What the same step reaches from nodes that stand for each other. -/
theorem mapM_reach_map {s : Step} (hns : ∀ n ∈ ns, P n.anchor)
    (heq : ∀ n, P n.anchor → reach t' s (n.map f) = (reach t s n).map (List.map (NodeRef.map f))) :
    (ns.map (NodeRef.map f)).mapM (reach t' s)
      = (ns.mapM (reach t s)).map (List.map (List.map (NodeRef.map f))) := by
  induction ns with
  | nil => rfl
  | cons n ns ih =>
    rw [List.map_cons, List.mapM_cons, List.mapM_cons, heq n (hns n List.mem_cons_self),
      ih fun m hm => hns m (List.mem_cons_of_mem n hm)]
    cases reach t s n with
    | error e => rfl
    | ok ms =>
      cases ns.mapM (reach t s) with
      | error e => rfl
      | ok mss => rfl

end

mutual

theorem eval_map (h : Alike P f t t') : ∀ (e : Expr) {ctx : Context}, P ctx.node.anchor →
    eval t' e (ctx.map f) = (eval t e ctx).map (Value.map f)
  | .literal _, _, _ => by rw [eval, eval]; rfl
  | .number _, _, _ => by rw [eval, eval]; rfl
  | .path absolute steps, ctx, hctx => by
    have hstart : (if absolute = true then (ctx.map f).node.documentOf t' else (ctx.map f).node)
        = (if absolute = true then ctx.node.documentOf t else ctx.node).map f := by
      split
      · exact documentOf_map h hctx
      · rfl
    have hmem : ∀ n ∈ [if absolute = true then ctx.node.documentOf t else ctx.node], P n.anchor := by
      intro n hn
      rw [List.mem_singleton.mp hn]
      split
      · exact documentOf_mem h hctx
      · exact hctx
    rw [eval, eval]
    simp only [hstart]
    rw [← List.map_singleton, walk_map h steps hmem]
    cases walk t steps [if absolute = true then ctx.node.documentOf t else ctx.node] <;> rfl
  | .filter primary predicates steps, ctx, hctx => by
    rw [eval, eval, eval_map h primary hctx]
    cases hp : eval t primary ctx with
    | error e => rfl
    | ok v =>
      cases v with
      | nodes ns =>
        have hns : ∀ n ∈ ns, P n.anchor := eval_mem h hctx hp
        simp only [Except.map, Value.map, bind, Except.bind]
        rw [narrow_map h predicates hns]
        cases hk : narrow t predicates ns with
        | error e => rfl
        | ok kept =>
          simp only [Except.map]
          rw [walk_map h steps fun n hn => hns n ((narrow_sublist hk).subset hn)]
          cases walk t steps kept <;> rfl
      | _ => rfl
  | .binary op left right, ctx, hctx => by
    rw [eval, eval, eval_map h left hctx]
    cases hl : eval t left ctx with
    | error e => rfl
    | ok a =>
      have ha := eval_mem h hctx hl
      simp only [Except.map, bind, Except.bind, pure, Except.pure, Value.toTruth_map, Value.toNumber_map h ha]
      rw [eval_map h right hctx]
      cases hrt : eval t right ctx with
      | error e => cases op <;> simp only [Except.map] <;> split <;> rfl
      | ok b =>
        have hb := eval_mem h hctx hrt
        simp only [Except.map, Value.toTruth_map, Value.toNumber_map h hb, holds_map h _ ha hb]
        cases op <;> simp only [Operator.arithmetic?] <;> first | rfl | split <;> rfl
  | .negate operand, ctx, hctx => by
    rw [eval, eval, eval_map h operand hctx]
    cases ho : eval t operand ctx with
    | error e => rfl
    | ok v =>
      have hv := Value.toNumber_map h (eval_mem h hctx ho)
      simp only [Except.map, bind, Except.bind, pure, Except.pure, hv]
      rfl
  | .union left right, ctx, hctx => by
    rw [eval, eval, eval_map h left hctx, eval_map h right hctx]
    cases hl : eval t left ctx with
    | error e => rfl
    | ok a =>
      cases hrt : eval t right ctx with
      | error e => rfl
      | ok b =>
        have ha := eval_mem h hctx hl
        have hb := eval_mem h hctx hrt
        cases a with
        | nodes ms =>
          cases b with
          | nodes ns =>
            have hmem : ∀ n ∈ ms ++ ns, P n.anchor := by
              intro n hn
              exact (List.mem_append.mp hn).elim (ha n) (hb n)
            simp only [Except.map, bind, Except.bind, pure, Except.pure, Value.map]
            rw [← List.map_append, eraseDups_nodes_map h hmem]
          | _ => rfl
        | _ => cases b <;> rfl
  | .call function arguments, ctx, hctx => by
    rw [eval, eval, evalAll_map h arguments hctx]
    cases ha : evalAll t arguments ctx with
    | error e => rfl
    | ok args => exact call_map h hctx (evalAll_mem h hctx ha) function

theorem evalAll_map (h : Alike P f t t') : ∀ (es : List Expr) {ctx : Context}, P ctx.node.anchor →
    evalAll t' es (ctx.map f) = (evalAll t es ctx).map (List.map (Value.map f))
  | [], _, _ => by rw [evalAll, evalAll]; rfl
  | e :: es, ctx, hctx => by
    rw [evalAll, evalAll, eval_map h e hctx, evalAll_map h es hctx]
    cases eval t e ctx with
    | error e => rfl
    | ok v => cases evalAll t es ctx <;> rfl

theorem walk_map (h : Alike P f t t') : ∀ (steps : List Step) {ns : List NodeRef}, (∀ n ∈ ns, P n.anchor) →
    walk t' steps (ns.map (NodeRef.map f)) = (walk t steps ns).map (List.map (NodeRef.map f))
  | [], _, _ => by rw [walk, walk]; rfl
  | s :: ss, ns, hns => by
    rw [walk, walk, mapM_reach_map hns fun n hn => reach_map h s hn]
    cases hr : ns.mapM (reach t s) with
    | error e => rfl
    | ok mss =>
      have hmem : ∀ n ∈ mss.flatten, P n.anchor := by
        intro m hm
        obtain ⟨l, hl, hm⟩ := List.mem_flatten.mp hm
        obtain ⟨n, hn, hreach⟩ := mapM_ok hr l hl
        exact reach_mem h (hns n hn) hreach m hm
      simp only [Except.map, bind, Except.bind]
      rw [← List.map_flatten, eraseDups_nodes_map h hmem]
      exact walk_map h ss fun n hn => hmem n (List.mem_eraseDups.mp hn)

theorem reach_map (h : Alike P f t t') : ∀ (s : Step) {n : NodeRef}, P n.anchor →
    reach t' s (n.map f) = (reach t s n).map (List.map (NodeRef.map f))
  | .mk axis test predicates, n, hn => by
    have hmem : ∀ m ∈ axis.nodes t n, P m.anchor := fun m hm => axis_mem h hn hm
    have hfilter : (axis.nodes t' (n.map f)).filter (test.passes t' axis)
        = ((axis.nodes t n).filter (test.passes t axis)).map (NodeRef.map f) := by
      rw [axis_map h hn, List.filter_map]
      exact congrArg (List.map _) (List.filter_congr fun m hm => passes_map h (hmem m hm) axis test)
    rw [reach, reach, hfilter]
    exact narrow_map h predicates fun m hm => hmem m (List.mem_filter.mp hm).1

theorem narrow_map (h : Alike P f t t') : ∀ (predicates : List Expr) {ns : List NodeRef}, (∀ n ∈ ns, P n.anchor) →
    narrow t' predicates (ns.map (NodeRef.map f)) = (narrow t predicates ns).map (List.map (NodeRef.map f))
  | [], _, _ => by rw [narrow, narrow]; rfl
  | p :: ps, ns, hns => by
    have hholds : ∀ n ∈ ns, ∀ place,
        (eval t' p ⟨n.map f, place, (ns.map (NodeRef.map f)).length⟩).map (Value.keeps place)
          = (eval t p ⟨n, place, ns.length⟩).map (Value.keeps place) := by
      intro n hn place
      have hctx : P (Context.mk n place ns.length).node.anchor := hns n hn
      have he := eval_map h p hctx
      rw [Context.map] at he
      rw [List.length_map, he]
      cases eval t p ⟨n, place, ns.length⟩ with
      | error e => rfl
      | ok v => exact congrArg Except.ok (Value.keeps_map place)
    rw [narrow, narrow, keepFrom_map hholds]
    cases hk : keepFrom (fun n place => (eval t p ⟨n, place, ns.length⟩).map (Value.keeps place)) 1 ns with
    | error e => rfl
    | ok kept => exact narrow_map h ps fun n hn => hns n ((keepFrom_sublist hk).subset hn)

end

/-- A query has the same text at nodes that stand for each other. -/
theorem evaluate_map (h : Alike P f t t') (hn : P n.anchor) (source : String) :
    evaluate t' (n.map f) source = evaluate t n source := by
  unfold evaluate run
  cases Expr.parse source with
  | error e => rfl
  | ok e =>
    have hctx : P (Context.mk n 1 1).node.anchor := hn
    have he := eval_map h e hctx
    rw [Context.map] at he
    simp only [he]
    cases hv : eval t e ⟨n, 1, 1⟩ with
    | error c => rfl
    | ok v => exact congrArg Except.ok (Value.toText_map h (eval_mem h hctx hv))

/-- A query selects nodes that stand for each other. -/
theorem select_map (h : Alike P f t t') (hn : P n.anchor) (source : String) :
    select t' (n.map f) source = (select t n source).map (List.map (NodeRef.map f)) := by
  unfold select run
  cases Expr.parse source with
  | error e => rfl
  | ok e =>
    have hctx : P (Context.mk n 1 1).node.anchor := hn
    have he := eval_map h e hctx
    rw [Context.map] at he
    simp only [he]
    cases eval t e ⟨n, 1, 1⟩ with
    | error c => rfl
    | ok v => cases v <;> rfl

/-- What a query selects belongs to the documents it is asked of. -/
theorem select_mem (h : Alike P f t t') (hn : P n.anchor) {source : String} (hs : select t n source = .ok ns) :
    ∀ m ∈ ns, P m.anchor := by
  unfold select run at hs
  cases he : Expr.parse source with
  | error e => rw [he] at hs; cases hs
  | ok e =>
    simp only [he] at hs
    cases hv : eval t e ⟨n, 1, 1⟩ with
    | error c => rw [hv] at hs; cases hs
    | ok v =>
      simp only [hv] at hs
      cases v with
      | nodes ms =>
        cases hs
        have hctx : P (Context.mk n 1 1).node.anchor := hn
        exact eval_mem h hctx hv
      | _ => cases hs

end Stencil.Query
