/-
  What a set of nodes contains.

  The nodes on an axis are computed by walks through the tree.  What they should be is said here by relations:
  `Child` and `Parent` are the links between nodes of all kinds, and each axis is one of them, repeated or not, or
  the order of siblings, or what an element has for attributes (`OnAxis`).  The walks find exactly these nodes
  (`mem_nodes`).  So the nodes that a location path without predicates selects are those that can be reached by
  one node on the axis of each step that passes its test (`Reaches`), one step after another.

  Every set of nodes is a list without repetitions, and all its nodes belong to one document: that holds where
  a path begins, and evaluation keeps it (`Kept`).
-/
import Mathlib.Logic.Relation
import Stencil.Proofs.Query.Alike

set_option autoImplicit false

namespace Stencil.Query

open Relation (TransGen ReflTransGen)

variable {t : Tree} {id : NodeId} {n m : NodeRef} {ns ms : List NodeRef}

/-! ## Relations between nodes -/

/-- `m` is directly below `n`. -/
inductive Child (t : Tree) : NodeRef → NodeRef → Prop
  | root (r : NodeId) : Child t (.document r) (.element r)
  | text (id : NodeId) (own : t.text id ≠ "") : Child t (.element id) (.text id)
  | element {p c : NodeId} (link : t.parent? c = some p) : Child t (.element p) (.element c)

/-- `m` is directly above `n`. -/
inductive Parent (t : Tree) : NodeRef → NodeRef → Prop
  | document (r : NodeId) (root : t.parent? r = none) : Parent t (.element r) (.document r)
  | element {p c : NodeId} (link : t.parent? c = some p) : Parent t (.element c) (.element p)
  | attr (id : NodeId) (name : String) : Parent t (.attr id name) (.element id)
  | text (id : NodeId) : Parent t (.text id) (.element id)

/-- `a` and `b` are children of one node, and `a` comes first. -/
def Before (t : Tree) (a b : NodeId) : Prop :=
  ∃ p before between after, t.children p = before ++ a :: (between ++ b :: after)

/-- `m` is on an axis of `n`. -/
def OnAxis (t : Tree) (n m : NodeRef) : Axis → Prop
  | .child => Child t n m
  | .descendant => TransGen (Child t) n m
  | .descendantOrSelf => ReflTransGen (Child t) n m
  | .self => n = m
  | .parent => Parent t n m
  | .ancestor => TransGen (Parent t) n m
  | .ancestorOrSelf => ReflTransGen (Parent t) n m
  | .attributes => ∃ id name, n = .element id ∧ m = .attr id name ∧ (t.attribute? id name).isSome
  | .followingSibling => ∃ a b, n = .element a ∧ m = .element b ∧ Before t a b
  | .precedingSibling => ∃ a b, n = .element a ∧ m = .element b ∧ Before t b a

/-- `m` is reached from `n` by steps without predicates. -/
def Reaches (t : Tree) : List (Axis × NodeTest) → NodeRef → NodeRef → Prop
  | [], n, m => n = m
  | (axis, test) :: steps, n, m => ∃ k, OnAxis t n k axis ∧ test.passes t axis k = true ∧ Reaches t steps k m

/-! ## Axes -/

namespace NodeRef

theorem mem_children (hwf : t.WellFormed) : m ∈ n.children t ↔ Child t n m := by
  cases n with
  | document r =>
    rw [children, List.mem_singleton]
    exact ⟨fun h => h ▸ .root r, fun h => by cases h; rfl⟩
  | element id =>
    rw [children, List.mem_append, List.mem_map]
    constructor
    · rintro (h | ⟨c, hc, rfl⟩)
      · split at h
        · cases h
        · rename_i hown
          rw [List.mem_singleton.mp h]
          exact .text id fun he => hown (by rw [he]; rfl)
      · exact .element (hwf.mem_children.mp hc)
    · intro h
      cases h with
      | text _ own =>
        have hne : ¬ (t.text id).isEmpty = true := fun he => own (String.isEmpty_iff.mp he)
        rw [if_neg hne]
        exact .inl List.mem_cons_self
      | element link => exact .inr ⟨_, hwf.mem_children.mpr link, rfl⟩
  | attr id name => constructor <;> intro h <;> cases h
  | text id => constructor <;> intro h <;> cases h

theorem parent?_eq_some_iff : n.parent? t = some m ↔ Parent t n m := by
  cases n with
  | document r => constructor <;> intro h <;> cases h
  | element id =>
    rw [parent?]
    cases hp : t.parent? id with
    | none =>
      constructor
      · rintro ⟨⟩
        exact .document id hp
      · intro h
        cases h with
        | document => rfl
        | element link =>
          rw [hp] at link
          cases link
    | some p =>
      constructor
      · rintro ⟨⟩
        exact .element hp
      · intro h
        cases h with
        | document _ root =>
          rw [hp] at root
          cases root
        | element link =>
          rw [hp] at link
          cases link
          rfl
  | attr id name => exact ⟨by rintro ⟨⟩; exact .attr id name, by rintro ⟨⟩; rfl⟩
  | text id => exact ⟨by rintro ⟨⟩; exact .text id, by rintro ⟨⟩; rfl⟩

/-- What stands below a node is below its children. -/
theorem descendants_eq (hwf : t.WellFormed) (n : NodeRef) :
    n.descendants t = (n.children t).flatMap fun c => c :: c.descendants t := by
  cases n with
  | document r => rw [descendants_document hwf, children, List.flatMap_singleton]
  | element id =>
    rw [descendants_element hwf, children, List.flatMap_append, List.flatMap_map]
    congr 1
    split <;> rfl
  | attr id name => rfl
  | text id => rfl

theorem mem_descendants (hwf : t.WellFormed) : m ∈ n.descendants t ↔ TransGen (Child t) n m := by
  constructor
  · suffices h : ∀ d, m ∈ n.descendantsWithin t d → TransGen (Child t) n m from h _
    intro d
    induction d generalizing n with
    | zero => exact fun h => by cases h
    | succ d ih =>
      rw [descendantsWithin, List.mem_flatMap]
      rintro ⟨c, hc, hm⟩
      have hchild := (mem_children hwf).mp hc
      rcases List.mem_cons.mp hm with rfl | hm
      · exact .single hchild
      · exact .head hchild (ih hm)
  · intro h
    induction h using TransGen.head_induction_on with
    | single hchild =>
      rw [descendants_eq hwf, List.mem_flatMap]
      exact ⟨m, (mem_children hwf).mpr hchild, List.mem_cons_self⟩
    | @head n c hchild _ ih =>
      rw [descendants_eq hwf, List.mem_flatMap]
      exact ⟨c, (mem_children hwf).mpr hchild, List.mem_cons_of_mem c ih⟩

/-- What stands above a node is its parent and what stands above that one. -/
theorem ancestors_eq (hwf : t.WellFormed) (n : NodeRef) :
    n.ancestors t = match n.parent? t with
      | some p => p :: p.ancestors t
      | none => [] := by
  cases hp : n.parent? t with
  | none =>
    unfold ancestors
    rw [ancestorsWithin, hp]
  | some p =>
    cases p with
    | element id => exact ancestors_of_parent_element hwf hp
    | document r =>
      -- only the root of a document is below it
      unfold ancestors
      rw [ancestorsWithin, hp]
      rfl
    | attr id name => cases n <;> cases parent?_eq_some_iff.mp hp
    | text id => cases n <;> cases parent?_eq_some_iff.mp hp

theorem mem_ancestors (hwf : t.WellFormed) : m ∈ n.ancestors t ↔ TransGen (Parent t) n m := by
  constructor
  · suffices h : ∀ d, m ∈ n.ancestorsWithin t d → TransGen (Parent t) n m from h _
    intro d
    induction d generalizing n with
    | zero => exact fun h => by cases h
    | succ d ih =>
      rw [ancestorsWithin]
      cases hp : n.parent? t with
      | none => exact fun h => by cases h
      | some p =>
        intro hm
        have hparent := parent?_eq_some_iff.mp hp
        rcases List.mem_cons.mp hm with rfl | hm
        · exact .single hparent
        · exact .head hparent (ih hm)
  · intro h
    induction h using TransGen.head_induction_on with
    | single hparent =>
      rw [ancestors_eq hwf, parent?_eq_some_iff.mpr hparent]
      exact List.mem_cons_self
    | head hparent _ ih =>
      rw [ancestors_eq hwf, parent?_eq_some_iff.mpr hparent]
      exact List.mem_cons_of_mem _ ih

end NodeRef

theorem mem_keys_iff {α : Type} {name : String} {es : Entries α} :
    name ∈ es.keys ↔ (es.get? name).isSome := by
  induction es with
  | nil => simp [Entries.keys]
  | cons e es ih =>
    obtain ⟨key, v⟩ := e
    rw [Entries.get?]
    by_cases hk : key = name
    · simp [Entries.keys, hk]
    · have hk' : ¬ name = key := fun he => hk he.symm
      simpa [Entries.keys, hk, hk'] using ih

/-- The names of the attributes are those under which there is a value. -/
theorem mem_attributeNames {name : String} :
    name ∈ t.attributeNames id ↔ (t.attribute? id name).isSome := by
  unfold Tree.attributeNames Tree.attribute? Tree.attr? Computed.get?
  simp only [List.mem_append, List.mem_filter, Option.isSome_or, Bool.or_eq_true, ← mem_keys_iff,
    Bool.not_eq_true', List.contains_eq_mem, decide_eq_false_iff_not]
  by_cases hc : name ∈ (t.computed id).entries.keys <;> simp [hc]

theorem followingSiblings_iff (hwf : t.WellFormed) {a b : NodeId} :
    b ∈ t.followingSiblings a ↔ Before t a b := by
  constructor
  · intro hb
    obtain ⟨p, hp, -, -⟩ := hwf.mem_followingSiblings hb
    obtain ⟨before, after, hs⟩ := hwf.exists_split hp
    rw [hwf.followingSiblings_of_split hs] at hb
    obtain ⟨between, rest, rfl⟩ := List.append_of_mem hb
    exact ⟨p, before, between, rest, hs⟩
  · rintro ⟨p, before, between, after, hs⟩
    rw [hwf.followingSiblings_of_split hs]
    simp

theorem precedingSiblings_iff (hwf : t.WellFormed) {a b : NodeId} :
    b ∈ t.precedingSiblings a ↔ Before t b a := by
  constructor
  · intro hb
    cases hp : t.parent? a with
    | none =>
      unfold Tree.precedingSiblings Tree.position? at hb
      rw [hp] at hb
      cases hb
    | some p =>
      obtain ⟨before, after, hs⟩ := hwf.exists_split hp
      rw [hwf.precedingSiblings_of_split hs, List.mem_reverse] at hb
      obtain ⟨front, between, rfl⟩ := List.append_of_mem hb
      exact ⟨p, front, between, after, by rw [hs, List.append_assoc, List.cons_append]⟩
  · rintro ⟨p, before, between, after, hs⟩
    have hs' : t.children p = (before ++ b :: between) ++ a :: after := by
      rw [hs, List.append_assoc, List.cons_append]
    rw [hwf.precedingSiblings_of_split hs']
    simp

namespace NodeRef

theorem mem_attributes : m ∈ n.attributes t ↔ OnAxis t n m .attributes := by
  cases n with
  | element id =>
    rw [attributes, List.mem_map]
    constructor
    · rintro ⟨name, hname, rfl⟩
      exact ⟨id, name, rfl, rfl, mem_attributeNames.mp hname⟩
    · rintro ⟨_, name, ⟨⟩, rfl, hname⟩
      exact ⟨name, mem_attributeNames.mpr hname, rfl⟩
  | _ => exact ⟨fun h => (by cases h), by rintro ⟨_, _, ⟨⟩, _⟩⟩

theorem mem_followingSiblings (hwf : t.WellFormed) :
    m ∈ n.followingSiblings t ↔ OnAxis t n m .followingSibling := by
  cases n with
  | element a =>
    rw [followingSiblings, List.mem_map]
    constructor
    · rintro ⟨b, hb, rfl⟩
      exact ⟨a, b, rfl, rfl, (followingSiblings_iff hwf).mp hb⟩
    · rintro ⟨_, b, ⟨⟩, rfl, hb⟩
      exact ⟨b, (followingSiblings_iff hwf).mpr hb, rfl⟩
  | _ => exact ⟨fun h => (by cases h), by rintro ⟨_, _, ⟨⟩, _⟩⟩

theorem mem_precedingSiblings (hwf : t.WellFormed) :
    m ∈ n.precedingSiblings t ↔ OnAxis t n m .precedingSibling := by
  cases n with
  | element a =>
    rw [precedingSiblings, List.mem_map]
    constructor
    · rintro ⟨b, hb, rfl⟩
      exact ⟨a, b, rfl, rfl, (precedingSiblings_iff hwf).mp hb⟩
    · rintro ⟨_, b, ⟨⟩, rfl, hb⟩
      exact ⟨b, (precedingSiblings_iff hwf).mpr hb, rfl⟩
  | _ => exact ⟨fun h => (by cases h), by rintro ⟨_, _, ⟨⟩, _⟩⟩

end NodeRef

open NodeRef in
/-- The walks find exactly the nodes on an axis. -/
theorem mem_nodes (hwf : t.WellFormed) (axis : Axis) : m ∈ axis.nodes t n ↔ OnAxis t n m axis := by
  cases axis with
  | child => exact mem_children hwf
  | descendant => exact mem_descendants hwf
  | descendantOrSelf =>
    rw [Axis.nodes, List.mem_cons, mem_descendants hwf, OnAxis, Relation.reflTransGen_iff_eq_or_transGen]
  | self =>
    rw [Axis.nodes, List.mem_singleton, OnAxis]
    exact eq_comm
  | parent => rw [Axis.nodes, Option.mem_toList, parent?_eq_some_iff, OnAxis]
  | ancestor => exact mem_ancestors hwf
  | ancestorOrSelf =>
    rw [Axis.nodes, List.mem_cons, mem_ancestors hwf, OnAxis, Relation.reflTransGen_iff_eq_or_transGen]
  | attributes => exact mem_attributes
  | followingSibling => exact mem_followingSiblings hwf
  | precedingSibling => exact mem_precedingSiblings hwf

/-! ## Paths -/

/-- Steps without predicates. -/
def bare (steps : List (Axis × NodeTest)) : List Step := steps.map fun s => .mk s.1 s.2 []

/-- Steps without predicates lead from some nodes to what can be reached from one of them. -/
theorem walk_bare (hwf : t.WellFormed) (steps : List (Axis × NodeTest)) (ns : List NodeRef) :
    ∃ ms, walk t (bare steps) ns = .ok ms ∧ ∀ m, m ∈ ms ↔ ∃ n ∈ ns, Reaches t steps n m := by
  induction steps generalizing ns with
  | nil =>
    refine ⟨ns, by rw [bare, List.map_nil, walk], fun m => ?_⟩
    simp [Reaches]
  | cons s steps ih =>
    obtain ⟨axis, test⟩ := s
    have hreach : ∀ n, reach t (.mk axis test []) n = .ok ((axis.nodes t n).filter (test.passes t axis)) := by
      intro n
      rw [reach, narrow]
    have hmapM : ns.mapM (reach t (.mk axis test []))
        = .ok (ns.map fun n => (axis.nodes t n).filter (test.passes t axis)) := by
      rw [funext hreach]
      exact List.mapM_pure
    obtain ⟨ms, hms, hmem⟩ :=
      ih (ns.map fun n => (axis.nodes t n).filter (test.passes t axis)).flatten.eraseDups
    refine ⟨ms, ?_, fun m => ?_⟩
    · rw [bare, List.map_cons, walk, hmapM]
      exact hms
    · rw [hmem]
      simp only [List.mem_eraseDups, List.mem_flatten, List.mem_map, Reaches]
      constructor
      · rintro ⟨k, ⟨_, ⟨n, hn, rfl⟩, hk⟩, hm⟩
        obtain ⟨haxis, hpasses⟩ := List.mem_filter.mp hk
        exact ⟨n, hn, k, (mem_nodes hwf axis).mp haxis, hpasses, hm⟩
      · rintro ⟨n, hn, k, haxis, hpasses, hm⟩
        exact ⟨k, ⟨_, ⟨n, hn, rfl⟩, List.mem_filter.mpr ⟨(mem_nodes hwf axis).mpr haxis, hpasses⟩⟩, hm⟩

/-! ## Sets -/

theorem nodup_eraseDups {α : Type} [BEq α] [LawfulBEq α] : ∀ xs : List α, xs.eraseDups.Nodup
  | [] => List.nodup_nil
  | x :: xs => by
    rw [List.eraseDups_cons, List.nodup_cons]
    refine ⟨fun hm => ?_, nodup_eraseDups _⟩
    have hx := (List.mem_filter.mp (List.mem_eraseDups.mp hm)).2
    simp at hx
termination_by xs => xs.length
decreasing_by
  rw [List.length_cons]
  exact Nat.lt_succ_of_le (List.length_filter_le _ _)

/-- To be without repetitions is kept. -/
theorem kept_nodup : Kept t List.Nodup where
  fewer := fun hsub hns => hns.sublist hsub
  step := fun _ _ => nodup_eraseDups _
  union := fun _ _ => nodup_eraseDups _

/-- Every node belongs to the document of a root. -/
theorem exists_inside (hwf : t.WellFormed) (n : NodeRef) : ∃ root, t.parent? root = none ∧ n.Inside t root := by
  refine hwf.induction_above (motive := fun id => ∃ root, t.parent? root = none ∧ Tree.Under t root id)
    (fun id ih => ?_) n.anchor
  cases hp : t.parent? id with
  | none => exact ⟨id, hp, .self⟩
  | some p =>
    obtain ⟨root, hr, hu⟩ := ih p hp
    exact ⟨root, hr, .child hp hu⟩

/-- A set of nodes that a query has as its value at a node is without repetitions, and its nodes belong to the
    document of that node.  A location path without predicates has a value, and it contains just the nodes that
    its steps reach from that node, or from its document if the path is absolute. -/
theorem node_sets (hwf : t.WellFormed) (ctx : Context) :
    (∀ e ns, eval t e ctx = .ok (.nodes ns) →
        ns.Nodup ∧ ∀ n ∈ ns, n.documentOf t = ctx.node.documentOf t)
      ∧ ∀ absolute steps, ∃ ns, eval t (.path absolute (bare steps)) ctx = .ok (.nodes ns)
          ∧ ∀ m, m ∈ ns ↔ Reaches t steps (if absolute then ctx.node.documentOf t else ctx.node) m := by
  refine ⟨fun e ns h => ⟨?_, ?_⟩, fun absolute steps => ?_⟩
  · exact kept_nodup.eval (List.pairwise_singleton _ _) (List.pairwise_singleton _ _) h
  · obtain ⟨root, hr, hctx⟩ := exists_inside hwf ctx.node
    intro n hn
    unfold NodeRef.documentOf
    rw [rootOf_of_under hwf hr (inside_eval hwf hr hctx h n hn), rootOf_of_under hwf hr hctx]
  · obtain ⟨ms, hms, hmem⟩ := walk_bare hwf steps [if absolute = true then ctx.node.documentOf t else ctx.node]
    refine ⟨ms, ?_, fun m => ?_⟩
    · rw [eval]
      simp only [hms]
      rfl
    · rw [hmem]
      simp

/-- In a document with the children `a`, `b` and `a`, the siblings behind some `a` are one set, and the last child
    is in it. -/
theorem node_sets_behind_a :
    let t := Tree.ofElement (.mk "f" [] "" .none
      [.mk "a" [] "" .none [], .mk "b" [] "" .none [], .mk "a" [] "" .none []])
    ∃ ns, eval t (.path true (bare [(.descendant, .named "a"), (.followingSibling, .any)])) ⟨.element 2, 1, 1⟩
        = .ok (.nodes ns)
      ∧ ns.Nodup ∧ .element 3 ∈ ns ∧ ∀ n ∈ ns, n.documentOf t = .document 0 := by
  intro t
  obtain ⟨hsets, hpaths⟩ := node_sets (Tree.grafted_ofElement _).wellFormed ⟨.element 2, 1, 1⟩
  obtain ⟨ns, heval, hmem⟩ := hpaths true [(.descendant, .named "a"), (.followingSibling, .any)]
  obtain ⟨hnodup, hdocument⟩ := hsets _ ns heval
  have hroot : (NodeRef.element 2).documentOf t = .document 0 := by decide +kernel
  have hbelow : TransGen (Child t) (.document 0) (.element 1) :=
    .tail (.single (.root 0)) (.element (by decide +kernel))
  have hbehind : Before t 1 3 := ⟨0, [], [2], [], by decide +kernel⟩
  refine ⟨ns, heval, hnodup, (hmem _).mpr ?_, fun n hn => (hdocument n hn).trans hroot⟩
  rw [if_pos rfl, hroot]
  exact ⟨.element 1, hbelow, by decide +kernel, .element 3, ⟨1, 3, rfl, rfl, hbehind⟩, by decide +kernel, rfl⟩

end Stencil.Query
