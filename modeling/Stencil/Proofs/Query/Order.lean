/-
  Document order.

  A node comes before what stands below it, and of two parts of one node the earlier one comes, with all below it,
  before the later one and all below that (`Precedes`).  The parts of an element are its attributes, then its text
  and its children.

  A path collects what its nodes reach, node by node.  Whether that is document order is a question about nodes one
  of which stands below the other; the rest is sorted out by the nodes themselves.

    1. **The order** — nothing comes before itself, and no two nodes come before each other (`Precedes.asymm`): the
       nodes above one node form a chain.
    2. **One step** — what nodes in document order reach is in document order if, of two nodes of which one stands
       below the other, the lower one reaches nothing new or only what comes behind (`pairwise_flatMap`).
    3. **Paths** — attributes and nodes themselves, and all that stands below nodes, pass that test.  Children pass
       it where no node stands below another; so they do, until a step goes to all that stands below
       (`walk_ordered`).
    4. **Children of all that stands below** — here the order can be wrong, and the text of the outcome is the text
       of the wrong node.  It is right if and only if no selected node stands below an earlier sibling of another
       one (`pairwise_children_iff`).
-/
import Mathlib
import Stencil.Proofs.Query.Predicates

set_option autoImplicit false

namespace Stencil.Query

open Relation (TransGen ReflTransGen)

variable {t : Tree} {n m a b c : NodeRef} {ns ms : List NodeRef}

/-! ## The order -/

namespace NodeRef

/-- The parts of a node in their order.  An attribute is one part. -/
def parts (t : Tree) (n : NodeRef) : List NodeRef := (n.attributes t).eraseDups ++ n.children t

/-- Whether a node is one of the tree: a document has a root, an attribute a value, and a text is not empty. -/
def Present (t : Tree) : NodeRef → Prop
  | document r => t.parent? r = none
  | element _ => True
  | attr id name => (t.attribute? id name).isSome = true
  | text id => t.text id ≠ ""

/-- Whether a node is an attribute. -/
def IsAttr : NodeRef → Prop
  | attr .. => True
  | _ => False

end NodeRef

/-- `m` stands below `n`. -/
def Below (t : Tree) (n m : NodeRef) : Prop := TransGen (Parent t) m n

/-- `n` comes before `m` in document order. -/
inductive Precedes (t : Tree) : NodeRef → NodeRef → Prop
  | below {n m : NodeRef} (h : Below t n m) : Precedes t n m
  | beside {p a b n m : NodeRef} (order : [a, b].Sublist (p.parts t)) (hn : ReflTransGen (Parent t) n a)
      (hm : ReflTransGen (Parent t) m b) : Precedes t n m

theorem parent_unique (hb : Parent t a b) (hc : Parent t a c) : b = c :=
  Option.some.inj ((NodeRef.parent?_eq_some_iff.mpr hb).symm.trans (NodeRef.parent?_eq_some_iff.mpr hc))

/-- A ranking of the nodes in which what is above stands higher. -/
theorem exists_height (hwf : t.WellFormed) : ∃ height : NodeRef → Nat, ∀ m k, Parent t m k → height m < height k := by
  obtain ⟨rank, hrank⟩ := hwf.exists_rank
  let height : NodeRef → Nat
    | .attr .. | .text _ => 0
    | .element id => rank id + 1
    | .document r => rank r + 2
  refine ⟨height, fun m k h => ?_⟩
  cases h with
  | document r root => exact Nat.lt_succ_self _
  | element link => exact Nat.succ_lt_succ (hrank _ _ link)
  | attr id name => exact Nat.succ_pos _
  | text id => exact Nat.succ_pos _

theorem not_below_self (hwf : t.WellFormed) : ¬ Below t n n := by
  obtain ⟨height, hheight⟩ := exists_height hwf
  have habove : ∀ m, TransGen (Parent t) n m → height n < height m := by
    intro m h
    induction h with
    | single h => exact hheight _ _ h
    | tail _ h ih => exact Nat.lt_trans ih (hheight _ _ h)
  exact fun h => Nat.lt_irrefl _ (habove n h)

/-- Of two nodes above one, one is above the other. -/
theorem above_comparable (ha : ReflTransGen (Parent t) n a) (hb : ReflTransGen (Parent t) n b) :
    ReflTransGen (Parent t) a b ∨ ReflTransGen (Parent t) b a :=
  Relation.ReflTransGen.total_of_right_unique (fun _ _ _ => parent_unique) ha hb

/-- What stands below a part of a node stands below the node. -/
theorem below_of_within {p : NodeRef} (hp : Parent t a p) (h : ReflTransGen (Parent t) n a) : Below t p n :=
  TransGen.tail' h hp

/-- A node stands below one part of another, at most. -/
theorem part_unique (hwf : t.WellFormed) {p : NodeRef} (ha : Parent t a p) (hb : Parent t b p)
    (hna : ReflTransGen (Parent t) n a) (hnb : ReflTransGen (Parent t) n b) : a = b := by
  -- if one of the parts were below the other, the node would be below its own part
  have hbelow : ∀ {x y}, Parent t x p → Parent t y p → ReflTransGen (Parent t) x y → x = y := by
    intro x y hx hy hxy
    rcases hxy.cases_head with rfl | ⟨z, hz, hzy⟩
    · rfl
    · obtain rfl := parent_unique hx hz
      exact absurd (below_of_within hy hzy) (not_below_self hwf)
  rcases above_comparable hna hnb with h | h
  · exact hbelow ha hb h
  · exact (hbelow hb ha h).symm

theorem pair_or {α : Type} {xs : List α} {a b : α} (ha : a ∈ xs) (hb : b ∈ xs) (hne : a ≠ b) :
    [a, b].Sublist xs ∨ [b, a].Sublist xs := by
  induction xs with
  | nil => cases ha
  | cons x xs ih =>
    rcases List.mem_cons.mp ha with rfl | ha'
    · have hb := (List.mem_cons.mp hb).resolve_left hne.symm
      exact .inl (.cons_cons a (List.singleton_sublist.mpr hb))
    · rcases List.mem_cons.mp hb with rfl | hb
      · exact .inr (.cons_cons b (List.singleton_sublist.mpr ha'))
      · exact (ih ha' hb).imp (.cons x) (.cons x)

theorem pair_asymm {α : Type} {xs : List α} {a b : α} (hxs : xs.Nodup) (hab : [a, b].Sublist xs)
    (hba : [b, a].Sublist xs) : False := by
  induction xs with
  | nil => cases hab
  | cons x xs ih =>
    obtain ⟨hx, hxs⟩ := List.nodup_cons.mp hxs
    cases hab with
    | cons _ hab =>
      cases hba with
      | cons _ hba => exact ih hxs hab hba
      | cons_cons _ hba => exact hx (hab.subset (by simp))
    | cons_cons _ hb =>
      cases hba with
      | cons _ hba => exact hx (hba.subset (by simp))
      | cons_cons _ _ => exact hx (hb.subset (by simp))

theorem pair_ne {α : Type} {xs : List α} {a b : α} (hxs : xs.Nodup) (hab : [a, b].Sublist xs) : a ≠ b := by
  rintro rfl
  exact pair_asymm hxs hab hab

theorem nodup_children (hwf : t.WellFormed) : (n.children t).Nodup := by
  cases n with
  | document r => exact List.pairwise_singleton _ _
  | element id =>
    rw [NodeRef.children, List.nodup_append]
    refine ⟨?_, ?_, ?_⟩
    · split
      · exact List.nodup_nil
      · exact List.pairwise_singleton _ _
    · exact List.Pairwise.map NodeRef.element (fun _ _ hne h => hne (NodeRef.element.inj h)) (hwf.children_nodup id)
    · intro x hx y hy heq
      obtain ⟨c, -, rfl⟩ := List.mem_map.mp hy
      split at hx
      · cases hx
      · rw [List.mem_singleton.mp hx] at heq
        cases heq
  | attr id name => exact List.nodup_nil
  | text id => exact List.nodup_nil

theorem isAttr_of_mem_attributes (h : m ∈ n.attributes t) : m.IsAttr ∧ Parent t m n := by
  obtain ⟨id, name, rfl, rfl, -⟩ := NodeRef.mem_attributes.mp h
  exact ⟨trivial, .attr id name⟩

theorem not_isAttr_of_mem_children (hwf : t.WellFormed) (h : m ∈ n.children t) : ¬ m.IsAttr := by
  cases (NodeRef.mem_children hwf).mp h <;> exact id

theorem nodup_parts (hwf : t.WellFormed) : (n.parts t).Nodup := by
  rw [NodeRef.parts, List.nodup_append]
  refine ⟨nodup_eraseDups _, nodup_children hwf, ?_⟩
  rintro x hx _ hy rfl
  exact not_isAttr_of_mem_children hwf hy (isAttr_of_mem_attributes (List.mem_eraseDups.mp hx)).1

/-- Two parts are parts of one node: documents have one child only. -/
theorem parent_of_pair (hwf : t.WellFormed) {p : NodeRef} (h : [a, b].Sublist (p.parts t)) :
    Parent t a p ∧ Parent t b p := by
  have hparent : ∀ x ∈ p.parts t, (∀ r, p ≠ .document r) → Parent t x p := by
    intro x hx hp
    rcases List.mem_append.mp hx with hx | hx
    · exact (isAttr_of_mem_attributes (List.mem_eraseDups.mp hx)).2
    · cases (NodeRef.mem_children hwf).mp hx with
      | root r => exact absurd rfl (hp r)
      | text id own => exact .text id
      | element link => exact .element link
  cases p with
  | document r =>
    have hlength : 2 ≤ 1 := h.length_le
    omega
  | _ =>
    exact ⟨hparent a (h.subset (by simp)) nofun, hparent b (h.subset (by simp)) nofun⟩

/-- Two nodes part ways at one node only. -/
theorem parting_unique (hwf : t.WellFormed) {p p' a' b' : NodeRef} (hab : a ≠ b) (ha : Parent t a p)
    (hb : Parent t b p) (hna : ReflTransGen (Parent t) n a) (hmb : ReflTransGen (Parent t) m b) (hab' : a' ≠ b')
    (ha' : Parent t a' p') (hb' : Parent t b' p') (hna' : ReflTransGen (Parent t) n a')
    (hmb' : ReflTransGen (Parent t) m b') : p = p' := by
  -- below the upper one of two such places, both nodes would stand below one part
  have hupper : ∀ {q q' x y x' y'}, Parent t x q → Parent t y q → ReflTransGen (Parent t) n x →
      ReflTransGen (Parent t) m y → x' ≠ y' → Parent t x' q' → Parent t y' q' → ReflTransGen (Parent t) n x' →
      ReflTransGen (Parent t) m y' → ReflTransGen (Parent t) q q' → q = q' := by
    intro q q' x y x' y' hx hy hnx hmy hne hx' hy' hnx' hmy' hqq'
    rcases hqq'.cases_tail with rfl | ⟨s, hqs, hs⟩
    · rfl
    · have hns := part_unique hwf hs hx' ((hnx.tail hx).trans hqs) hnx'
      have hms := part_unique hwf hs hy' ((hmy.tail hy).trans hqs) hmy'
      exact absurd (hns.symm.trans hms) hne
  rcases above_comparable (hna.tail ha) (hna'.tail ha') with h | h
  · exact hupper ha hb hna hmb hab' ha' hb' hna' hmb' h
  · exact (hupper ha' hb' hna' hmb' hab ha hb hna hmb h).symm

/-- A node does not stand below one that comes beside it. -/
theorem not_below_of_beside (hwf : t.WellFormed) {p : NodeRef} (order : [a, b].Sublist (p.parts t))
    (hn : ReflTransGen (Parent t) n a) (hm : ReflTransGen (Parent t) m b) : ¬ Below t n m ∧ ¬ Below t m n := by
  obtain ⟨ha, hb⟩ := parent_of_pair hwf order
  have hne := pair_ne (nodup_parts hwf) order
  constructor
  · exact fun h => hne (part_unique hwf ha hb (h.to_reflTransGen.trans hn) hm)
  · exact fun h => hne (part_unique hwf ha hb hn (h.to_reflTransGen.trans hm))

/-- No two nodes come before each other. -/
theorem Precedes.asymm (hwf : t.WellFormed) (h : Precedes t n m) (h' : Precedes t m n) : False := by
  cases h with
  | below h =>
    cases h' with
    | below h' => exact not_below_self hwf (TransGen.trans h h')
    | beside order hm hn => exact (not_below_of_beside hwf order hm hn).2 h
  | beside order hn hm =>
    cases h' with
    | below h' => exact (not_below_of_beside hwf order hn hm).2 h'
    | beside order' hm' hn' =>
      obtain ⟨ha, hb⟩ := parent_of_pair hwf order
      obtain ⟨ha', hb'⟩ := parent_of_pair hwf order'
      have hne := pair_ne (nodup_parts hwf) order
      have hne' := (pair_ne (nodup_parts hwf) order').symm
      -- the nodes part ways at one node, and there each stands below one part
      obtain rfl := parting_unique hwf hne ha hb hn hm hne' hb' ha' hn' hm'
      obtain rfl := part_unique hwf ha hb' hn hn'
      obtain rfl := part_unique hwf hb ha' hm hm'
      exact pair_asymm (nodup_parts hwf) order order'

/-! ## One step -/

theorem eraseDups_sublist {α : Type} [BEq α] : ∀ xs : List α, xs.eraseDups.Sublist xs
  | [] => .refl _
  | x :: xs => by
    rw [List.eraseDups_cons]
    exact ((eraseDups_sublist _).trans List.filter_sublist).cons_cons x
termination_by xs => xs.length
decreasing_by
  rw [List.length_cons]
  exact Nat.lt_succ_of_le (List.length_filter_le _ _)

theorem eraseDups_filter {α : Type} [BEq α] [LawfulBEq α] (q : α → Bool) :
    ∀ xs : List α, (xs.filter q).eraseDups = xs.eraseDups.filter q
  | [] => rfl
  | x :: xs => by
    have hrest : ((xs.filter fun y => !y == x).filter q).eraseDups = (xs.filter fun y => !y == x).eraseDups.filter q :=
      eraseDups_filter q _
    rw [List.eraseDups_cons, List.filter_cons, List.filter_cons, ← hrest]
    cases hq : q x with
    | true =>
      rw [if_pos rfl, if_pos rfl, List.eraseDups_cons, List.filter_filter, List.filter_filter]
      simp only [Bool.and_comm]
    | false =>
      rw [if_neg Bool.false_ne_true, if_neg Bool.false_ne_true, List.filter_filter]
      refine congrArg _ (List.filter_congr fun y _ => ?_)
      by_cases hy : y = x
      · rw [hy, hq]
        rfl
      · simp [hy]
termination_by xs => xs.length
decreasing_by
  rw [List.length_cons]
  exact Nat.lt_succ_of_le (List.length_filter_le _ _)

theorem eraseDups_of_nodup {α : Type} [BEq α] [LawfulBEq α] {xs : List α} (h : xs.Nodup) : xs.eraseDups = xs := by
  induction xs with
  | nil => rfl
  | cons x xs ih =>
    obtain ⟨hx, hxs⟩ := List.nodup_cons.mp h
    have hfilter : (xs.filter fun y => !y == x) = xs := by
      refine List.filter_eq_self.mpr fun y hy => ?_
      have hne : y ≠ x := fun he => hx (he ▸ hy)
      simp [hne]
    rw [List.eraseDups_cons, hfilter, ih hxs]

/-- What nodes in document order reach is in document order, if a node that stands below another one of them reaches
    nothing that is new or only what comes behind. -/
theorem pairwise_flatMap {g : NodeRef → List NodeRef} (hns : ns.Pairwise (Precedes t))
    (hg : ∀ a ∈ ns, (g a).eraseDups.Pairwise (Precedes t)) (hin : ∀ a ∈ ns, ∀ x ∈ g a, ReflTransGen (Parent t) x a)
    (hcross : ∀ a ∈ ns, ∀ b ∈ ns, Below t a b → ∀ x ∈ g a, ∀ y ∈ g b, y ∈ g a ∨ Precedes t x y) :
    (ns.flatMap g).eraseDups.Pairwise (Precedes t) := by
  induction ns with
  | nil => exact .nil
  | cons a ns ih =>
    obtain ⟨ha, hns⟩ := List.pairwise_cons.mp hns
    have hrest := ih hns (fun b hb => hg b (List.mem_cons_of_mem a hb)) (fun b hb => hin b (List.mem_cons_of_mem a hb))
      (fun b hb c hc => hcross b (List.mem_cons_of_mem a hb) c (List.mem_cons_of_mem a hc))
    rw [List.flatMap_cons, List.eraseDups_append, List.pairwise_append]
    refine ⟨hg a List.mem_cons_self, ?_, fun x hx y hy => ?_⟩
    · rw [List.removeAll, eraseDups_filter]
      exact hrest.sublist List.filter_sublist
    · rw [List.mem_eraseDups] at hx hy
      obtain ⟨hy, hnew⟩ := List.mem_filter.mp hy
      obtain ⟨b, hb, hy⟩ := List.mem_flatMap.mp hy
      have hyb := hin b (List.mem_cons_of_mem a hb) y hy
      cases ha b hb with
      | below h =>
        -- what is left behind the first node is new, so it comes behind
        refine (hcross a List.mem_cons_self b (List.mem_cons_of_mem a hb) h x hx y hy).resolve_left fun hold => ?_
        rw [List.elem_eq_true_of_mem hold] at hnew
        cases hnew
      | beside order hn hm =>
        exact .beside order ((hin a List.mem_cons_self x hx).trans hn) (hyb.trans hm)

/-! ## Axes -/

theorem parent_of_child (hn : n.Present t) (h : Child t n m) : Parent t m n ∧ m.Present t ∧ ¬ m.IsAttr := by
  cases h with
  | root r => exact ⟨.document r hn, trivial, id⟩
  | text id own => exact ⟨.text id, own, fun h => h⟩
  | element link => exact ⟨.element link, trivial, fun h => h⟩

theorem child_of_parent (hm : m.Present t) (hattr : ¬ m.IsAttr) (h : Parent t m n) :
    Child t n m ∧ n.Present t ∧ ¬ n.IsAttr := by
  cases h with
  | document r root => exact ⟨.root r, root, id⟩
  | element link => exact ⟨.element link, trivial, id⟩
  | attr id name => exact absurd trivial hattr
  | text id => exact ⟨.text id hm, trivial, fun h => h⟩

theorem below_of_mem_descendants (hwf : t.WellFormed) (hn : n.Present t) (h : m ∈ n.descendants t) :
    Below t n m ∧ m.Present t ∧ ¬ m.IsAttr := by
  have hchain := (NodeRef.mem_descendants hwf).mp h
  clear h
  induction hchain with
  | single h =>
    obtain ⟨hp, hm⟩ := parent_of_child hn h
    exact ⟨.single hp, hm⟩
  | tail _ h ih =>
    obtain ⟨hp, hm⟩ := parent_of_child ih.2.1 h
    exact ⟨.head hp ih.1, hm⟩

theorem mem_descendants_of_below (hwf : t.WellFormed) (hm : m.Present t) (hattr : ¬ m.IsAttr) (h : Below t n m) :
    m ∈ n.descendants t := by
  rw [NodeRef.mem_descendants hwf]
  induction h using TransGen.head_induction_on with
  | single h => exact .single (child_of_parent hm hattr h).1
  | head h _ ih =>
    obtain ⟨hchild, hp, hpattr⟩ := child_of_parent hm hattr h
    exact .tail (ih hp hpattr) hchild

/-- Only what is no attribute has something below it. -/
theorem not_isAttr_of_below (h : Below t n m) : ¬ n.IsAttr := by
  obtain ⟨k, -, hk⟩ := TransGen.tail'_iff.mp h
  cases hk <;> exact fun h => h

theorem pairwise_children : (n.children t).Pairwise (Precedes t) := by
  refine List.pairwise_iff_forall_sublist.mpr fun {a b} h => ?_
  exact .beside (h.trans (List.sublist_append_right _ _)) .refl .refl

/-- Induction from the leaves upward: a node has a property if its children have it. -/
theorem induction_upward (hwf : t.WellFormed) {motive : NodeRef → Prop}
    (step : ∀ n, n.Present t → (∀ c ∈ n.children t, c.Present t ∧ motive c) → motive n) (hn : n.Present t) :
    motive n := by
  obtain ⟨height, hheight⟩ := exists_height hwf
  induction hh : height n using Nat.strongRecOn generalizing n with
  | ind h ih =>
    refine step n hn fun c hc => ?_
    obtain ⟨hp, hpresent, -⟩ := parent_of_child hn ((NodeRef.mem_children hwf).mp hc)
    exact ⟨hpresent, ih (height c) (hh ▸ hheight c n hp) hpresent rfl⟩

/-- The nodes below a node come in document order: child after child, each before all below it. -/
theorem pairwise_descendants (hwf : t.WellFormed) (hn : n.Present t) : (n.descendants t).Pairwise (Precedes t) := by
  refine induction_upward hwf (motive := fun n => (n.descendants t).Pairwise (Precedes t)) (fun n hn ih => ?_) hn
  rw [NodeRef.descendants_eq hwf, List.pairwise_flatMap]
  refine ⟨fun c hc => ?_, ?_⟩
  · obtain ⟨hpresent, hordered⟩ := ih c hc
    exact List.pairwise_cons.mpr ⟨fun m hm => .below (below_of_mem_descendants hwf hpresent hm).1, hordered⟩
  · have within : ∀ c ∈ n.children t, ∀ m ∈ c :: c.descendants t, ReflTransGen (Parent t) m c := by
      intro c hc m hm
      rcases List.mem_cons.mp hm with rfl | hm
      · exact .refl
      · exact (below_of_mem_descendants hwf (ih c hc).1 hm).1.to_reflTransGen
    refine List.pairwise_iff_forall_sublist.mpr fun {c d} hcd x hx y hy => ?_
    exact .beside (hcd.trans (List.sublist_append_right _ _)) (within c (hcd.subset (by simp)) x hx)
      (within d (hcd.subset (by simp)) y hy)

/-- The axes that lead from a node to itself, its parts, or all below it. -/
def Axis.Downward (axis : Axis) : Prop :=
  axis ∈ [Axis.child, .descendant, .descendantOrSelf, .self, .attributes]

theorem pairwise_nodes (hwf : t.WellFormed) (hn : n.Present t) {axis : Axis} (hdown : axis.Downward) :
    (axis.nodes t n).eraseDups.Pairwise (Precedes t) := by
  cases axis with
  | child => exact pairwise_children.sublist (eraseDups_sublist _)
  | descendant => exact (pairwise_descendants hwf hn).sublist (eraseDups_sublist _)
  | descendantOrSelf =>
    refine List.Pairwise.sublist (eraseDups_sublist _) (List.pairwise_cons.mpr ⟨fun m hm => ?_, ?_⟩)
    · exact .below (below_of_mem_descendants hwf hn hm).1
    · exact pairwise_descendants hwf hn
  | self => exact (List.pairwise_singleton _ _).sublist (eraseDups_sublist _)
  | attributes =>
    refine List.pairwise_iff_forall_sublist.mpr fun {a b} h => ?_
    exact .beside (h.trans (List.sublist_append_left _ _)) .refl .refl
  | _ => simp [Axis.Downward] at hdown

theorem within_of_mem_nodes (hwf : t.WellFormed) (hn : n.Present t) {axis : Axis} (hdown : axis.Downward)
    (hm : m ∈ axis.nodes t n) : ReflTransGen (Parent t) m n ∧ m.Present t := by
  cases axis with
  | child =>
    obtain ⟨hp, hpresent, -⟩ := parent_of_child hn ((NodeRef.mem_children hwf).mp hm)
    exact ⟨.single hp, hpresent⟩
  | descendant =>
    obtain ⟨hbelow, hpresent, -⟩ := below_of_mem_descendants hwf hn hm
    exact ⟨hbelow.to_reflTransGen, hpresent⟩
  | descendantOrSelf =>
    rcases List.mem_cons.mp hm with rfl | hm
    · exact ⟨.refl, hn⟩
    · obtain ⟨hbelow, hpresent, -⟩ := below_of_mem_descendants hwf hn hm
      exact ⟨hbelow.to_reflTransGen, hpresent⟩
  | self =>
    rw [List.mem_singleton.mp hm]
    exact ⟨.refl, hn⟩
  | attributes =>
    obtain ⟨id, name, rfl, rfl, hvalue⟩ := NodeRef.mem_attributes.mp hm
    exact ⟨.single (.attr id name), hvalue⟩
  | _ => simp [Axis.Downward] at hdown

/-! ## Steps of a path -/

/-- The nodes that a path has come to: they are in document order, and all of them are attributes or none. -/
structure Ordered (t : Tree) (ns : List NodeRef) : Prop where
  present : ∀ n ∈ ns, n.Present t
  pairwise : ns.Pairwise (Precedes t)
  uniform : (∀ n ∈ ns, n.IsAttr) ∨ ∀ n ∈ ns, ¬ n.IsAttr

/-- None of the nodes stands below another one. -/
def Apart (t : Tree) (ns : List NodeRef) : Prop := ∀ a ∈ ns, ∀ b ∈ ns, ¬ Below t a b

variable {s : Step} {ss : List Step} {x y : NodeRef}

theorem Ordered.not_isAttr (h : Ordered t ns) (ha : a ∈ ns) (hab : Below t a b) (hb : b ∈ ns) : ¬ b.IsAttr := by
  rcases h.uniform with hattr | hattr
  · exact absurd (hattr a ha) (not_isAttr_of_below hab)
  · exact hattr b hb

/-- Between a node and one below it there is a child of the upper one. -/
theorem exists_child (hb : b.Present t) (hattr : ¬ b.IsAttr) (hab : Below t a b) :
    ∃ c, Child t a c ∧ ReflTransGen (Parent t) b c := by
  induction hab using TransGen.head_induction_on with
  | single h => exact ⟨_, (child_of_parent hb hattr h).1, .refl⟩
  | head h _ ih =>
    obtain ⟨-, hp, hpattr⟩ := child_of_parent hb hattr h
    obtain ⟨c, hc, hwithin⟩ := ih hp hpattr
    exact ⟨c, hc, .head h hwithin⟩

/-- Of two nodes of which one stands below the other, the lower one reaches nothing new or only what comes behind,
    unless the step goes to the children. -/
theorem cross_of_ne_child (hwf : t.WellFormed) (hns : Ordered t ns) (hdown : s.axis.Downward) (hs : s.axis ≠ .child)
    (ha : a ∈ ns) (hb : b ∈ ns) (hab : Below t a b) (hx : x ∈ s.targets t a) (hy : y ∈ s.targets t b) :
    y ∈ s.targets t a ∨ Precedes t x y := by
  obtain ⟨hxaxis, -⟩ := List.mem_filter.mp hx
  obtain ⟨hyaxis, hykeeps⟩ := List.mem_filter.mp hy
  have hattr := hns.not_isAttr ha hab hb
  have hb' := hns.present b hb
  have hmem := mem_descendants_of_below hwf hb' hattr hab
  have hold : y ∈ s.axis.nodes t a → y ∈ s.targets t a := fun h => List.mem_filter.mpr ⟨h, hykeeps⟩
  have hdeep : y ∈ b.descendants t → y ∈ a.descendants t := by
    intro hy
    rw [NodeRef.mem_descendants hwf] at hmem hy ⊢
    exact hmem.trans hy
  cases haxis : s.axis with
  | child => exact absurd haxis hs
  | descendant =>
    rw [haxis] at hyaxis hold
    exact .inl (hold (hdeep hyaxis))
  | descendantOrSelf =>
    rw [haxis] at hyaxis hold
    rcases List.mem_cons.mp hyaxis with rfl | hyaxis
    · exact .inl (hold (List.mem_cons_of_mem a hmem))
    · exact .inl (hold (List.mem_cons_of_mem a (hdeep hyaxis)))
  | self =>
    rw [haxis] at hxaxis hyaxis
    rw [List.mem_singleton.mp hxaxis, List.mem_singleton.mp hyaxis]
    exact .inr (.below hab)
  | attributes =>
    rw [haxis] at hxaxis hyaxis
    -- the attributes of a node come before its children, and the lower node is one or stands below one
    obtain ⟨c, hc, hwithin⟩ := exists_child hb' hattr hab
    have horder : [x, c].Sublist (a.parts t) :=
      List.Sublist.append (List.singleton_sublist.mpr (List.mem_eraseDups.mpr hxaxis))
        (List.singleton_sublist.mpr ((NodeRef.mem_children hwf).mpr hc))
    exact .inr (.beside horder .refl (.head (isAttr_of_mem_attributes hyaxis).2 hwithin))
  | _ => rw [haxis] at hdown; simp [Axis.Downward] at hdown

/-- What a step downward leads to from a node that is no attribute is one only on the axis of attributes. -/
theorem isAttr_of_mem_nodes (hwf : t.WellFormed) (hn : n.Present t) {axis : Axis} (hdown : axis.Downward)
    (hm : m ∈ axis.nodes t n) : m.IsAttr ↔ axis = .attributes ∨ n.IsAttr := by
  cases axis with
  | child =>
    have hchild := (NodeRef.mem_children hwf).mp hm
    cases hchild <;> simp [NodeRef.IsAttr]
  | descendant =>
    obtain ⟨hbelow, -, hnot⟩ := below_of_mem_descendants hwf hn hm
    simp [hnot, not_isAttr_of_below hbelow]
  | descendantOrSelf =>
    rcases List.mem_cons.mp hm with rfl | hm
    · simp
    · obtain ⟨hbelow, -, hnot⟩ := below_of_mem_descendants hwf hn hm
      simp [hnot, not_isAttr_of_below hbelow]
  | self =>
    rw [List.mem_singleton.mp hm]
    simp
  | attributes => simp [(isAttr_of_mem_attributes hm).1]
  | _ => simp [Axis.Downward] at hdown

/-- The targets of a step from nodes in document order. -/
theorem mem_step : m ∈ (ns.flatMap (s.targets t)).eraseDups ↔ ∃ n ∈ ns, m ∈ s.axis.nodes t n ∧ s.keeps t m = true := by
  rw [List.mem_eraseDups, List.mem_flatMap]
  simp only [Step.targets, List.mem_filter]

/-- What is left to ask of a step is that its targets are in document order. -/
theorem Ordered.of_pairwise (hwf : t.WellFormed) (hns : Ordered t ns) (hdown : s.axis.Downward)
    (hpairwise : (ns.flatMap (s.targets t)).eraseDups.Pairwise (Precedes t)) :
    Ordered t (ns.flatMap (s.targets t)).eraseDups where
  present := by
    intro m hm
    obtain ⟨n, hn, hm, -⟩ := mem_step.mp hm
    exact (within_of_mem_nodes hwf (hns.present n hn) hdown hm).2
  pairwise := hpairwise
  uniform := by
    by_cases haxis : s.axis = .attributes
    · refine .inl fun m hm => ?_
      obtain ⟨n, hn, hm, -⟩ := mem_step.mp hm
      exact (isAttr_of_mem_nodes hwf (hns.present n hn) hdown hm).mpr (.inl haxis)
    · refine hns.uniform.imp (fun hattr m hm => ?_) fun hattr m hm => ?_
      · obtain ⟨n, hn, hm, -⟩ := mem_step.mp hm
        exact (isAttr_of_mem_nodes hwf (hns.present n hn) hdown hm).mpr (.inr (hattr n hn))
      · obtain ⟨n, hn, hm, -⟩ := mem_step.mp hm
        rw [isAttr_of_mem_nodes hwf (hns.present n hn) hdown hm]
        exact fun h => h.elim haxis (hattr n hn)

/-- The targets of a step are in document order if the targets of a node and of one below it are. -/
theorem pairwise_step (hwf : t.WellFormed) (hns : Ordered t ns) (hdown : s.axis.Downward)
    (hcross : ∀ a ∈ ns, ∀ b ∈ ns, Below t a b → ∀ x ∈ s.targets t a, ∀ y ∈ s.targets t b,
      y ∈ s.targets t a ∨ Precedes t x y) : (ns.flatMap (s.targets t)).eraseDups.Pairwise (Precedes t) := by
  refine pairwise_flatMap hns.pairwise (fun a ha => ?_) (fun a ha x hx => ?_) hcross
  · rw [Step.targets, eraseDups_filter]
    exact (pairwise_nodes hwf (hns.present a ha) hdown).sublist List.filter_sublist
  · exact (within_of_mem_nodes hwf (hns.present a ha) hdown (List.mem_filter.mp hx).1).1

/-- A step that does not go to the children keeps document order. -/
theorem Ordered.step (hwf : t.WellFormed) (hns : Ordered t ns) (hdown : s.axis.Downward) (hs : s.axis ≠ .child) :
    Ordered t (ns.flatMap (s.targets t)).eraseDups := by
  apply hns.of_pairwise hwf hdown
  apply pairwise_step hwf hns hdown
  intro a ha b hb hab x hx y hy
  exact cross_of_ne_child hwf hns hdown hs ha hb hab hx hy

/-- Any step keeps document order where no node stands below another one. -/
theorem Ordered.step_apart (hwf : t.WellFormed) (hns : Ordered t ns) (hapart : Apart t ns) (hdown : s.axis.Downward) :
    Ordered t (ns.flatMap (s.targets t)).eraseDups := by
  apply hns.of_pairwise hwf hdown
  apply pairwise_step hwf hns hdown
  intro a ha b hb hab
  exact absurd hab (hapart a ha b hb)

/-- Whether a step goes to all that stands below. -/
def Step.Deep (s : Step) : Prop := s.axis = .descendant ∨ s.axis = .descendantOrSelf

/-- The targets of a step that goes no deeper than the children stand below each other no more than the nodes. -/
theorem Apart.step (hwf : t.WellFormed) (hns : Ordered t ns) (hapart : Apart t ns) (hdown : s.axis.Downward)
    (hs : ¬ s.Deep) : Apart t (ns.flatMap (s.targets t)).eraseDups := by
  intro x hx y hy hxy
  obtain ⟨a, ha, hxaxis, -⟩ := mem_step.mp hx
  obtain ⟨b, hb, hyaxis, -⟩ := mem_step.mp hy
  cases haxis : s.axis with
  | child =>
    rw [haxis] at hxaxis hyaxis
    have hxa := (parent_of_child (hns.present a ha) ((NodeRef.mem_children hwf).mp hxaxis)).1
    have hyb := (parent_of_child (hns.present b hb) ((NodeRef.mem_children hwf).mp hyaxis)).1
    -- the way up from the lower child leads over its parent
    obtain ⟨k, hk, hkx⟩ := TransGen.head'_iff.mp hxy
    obtain rfl := parent_unique hyb hk
    exact hapart a ha b hb (TransGen.tail' hkx hxa)
  | descendant => exact hs (.inl haxis)
  | descendantOrSelf => exact hs (.inr haxis)
  | self =>
    rw [haxis] at hxaxis hyaxis
    rw [List.mem_singleton.mp hxaxis, List.mem_singleton.mp hyaxis] at hxy
    exact hapart a ha b hb hxy
  | attributes =>
    rw [haxis] at hxaxis
    exact not_isAttr_of_below hxy (isAttr_of_mem_attributes hxaxis).1
  | _ => rw [haxis] at hdown; simp [Axis.Downward] at hdown

/-! ## Paths -/

/-- No step to the children comes behind a step to all that stands below. -/
def ChildrenFirst (ss : List Step) : Prop := ss.Pairwise fun s s' => s.Deep → s'.axis ≠ .child

/-- A path keeps document order if no step to the children comes behind one to all that stands below. -/
theorem walk_ordered (hwf : t.WellFormed) (hplain : ∀ s ∈ ss, s.Plain) (hdown : ∀ s ∈ ss, s.axis.Downward)
    (hns : Ordered t ns) (hss : (∀ s ∈ ss, s.axis ≠ .child) ∨ Apart t ns ∧ ChildrenFirst ss)
    (h : walk t ss ns = .ok ms) : Ordered t ms := by
  induction ss generalizing ns with
  | nil =>
    rw [walk] at h
    cases h
    exact hns
  | cons s ss ih =>
    have hrest := walk_cons (hplain s List.mem_cons_self) h
    have hs := hdown s List.mem_cons_self
    have hplain' : ∀ s' ∈ ss, s'.Plain := fun s' hs' => hplain s' (List.mem_cons_of_mem s hs')
    have hdown' : ∀ s' ∈ ss, s'.axis.Downward := fun s' hs' => hdown s' (List.mem_cons_of_mem s hs')
    rcases hss with hss | ⟨hapart, hss⟩
    · have hother : ∀ s' ∈ ss, s'.axis ≠ .child := fun s' hs' => hss s' (List.mem_cons_of_mem s hs')
      exact ih hplain' hdown' (hns.step hwf hs (hss s List.mem_cons_self)) (.inl hother) hrest
    · obtain ⟨hhead, htail⟩ := List.pairwise_cons.mp hss
      have hordered := hns.step_apart hwf hapart hs
      by_cases hdeep : s.Deep
      · exact ih hplain' hdown' hordered (.inl fun s' hs' => hhead s' hs' hdeep) hrest
      · exact ih hplain' hdown' hordered (.inr ⟨hapart.step hwf hns hs hdeep, htail⟩) hrest

/-! ## Children of all that stands below -/

theorem walk_append {ss' : List Step} (h : walk t (ss ++ ss') ns = .ok ms) :
    ∃ ks, walk t ss ns = .ok ks ∧ walk t ss' ks = .ok ms := by
  induction ss generalizing ns with
  | nil => exact ⟨ns, by rw [walk], h⟩
  | cons s ss ih =>
    rw [List.cons_append, walk] at h
    cases hreached : ns.mapM (reach t s) with
    | error cause => rw [hreached] at h; cases h
    | ok reached =>
      rw [hreached] at h
      obtain ⟨ks, hks, hrest⟩ := ih h
      exact ⟨ks, by rw [walk, hreached]; exact hks, hrest⟩

/-- Each node is the child of one node, so a step to the children reaches none twice. -/
theorem nodup_children_step (hwf : t.WellFormed) (hns : Ordered t ns) (hs : s.axis = .child) :
    (ns.flatMap (s.targets t)).Nodup := by
  have hparent : ∀ a ∈ ns, ∀ x ∈ s.targets t a, Parent t x a := by
    intro a ha x hx
    have hx := (List.mem_filter.mp hx).1
    rw [hs] at hx
    exact (parent_of_child (hns.present a ha) ((NodeRef.mem_children hwf).mp hx)).1
  refine List.pairwise_flatMap.mpr ⟨fun a _ => ?_, ?_⟩
  · rw [Step.targets, hs]
    exact (nodup_children hwf).sublist List.filter_sublist
  · refine List.Pairwise.imp_of_mem (fun {a b} ha hb hab x hxa y hyb he => ?_) hns.pairwise
    subst he
    obtain rfl := parent_unique (hparent a ha x hxa) (hparent b hb x hyb)
    exact hab.asymm hwf hab

/-- A step to the children keeps document order if and only if no node that it selects stands below an earlier
    sibling of another one. -/
theorem pairwise_children_iff (hwf : t.WellFormed) (hns : Ordered t ns) (hs : s.axis = .child) :
    (ns.flatMap (s.targets t)).eraseDups.Pairwise (Precedes t)
      ↔ ∀ c ∈ (ns.flatMap (s.targets t)).eraseDups, ∀ d ∈ (ns.flatMap (s.targets t)).eraseDups,
        ∀ p e : NodeRef, [e, c].Sublist (p.children t) → ¬ Below t e d := by
  have hdown : s.axis.Downward := by rw [hs]; simp [Axis.Downward]
  have hparent : ∀ a ∈ ns, ∀ x ∈ s.axis.nodes t a, Child t a x ∧ Parent t x a := by
    intro a ha x hx
    rw [hs] at hx
    have hchild := (NodeRef.mem_children hwf).mp hx
    exact ⟨hchild, (parent_of_child (hns.present a ha) hchild).1⟩
  constructor
  · rw [eraseDups_of_nodup (nodup_children_step hwf hns hs), List.pairwise_flatMap]
    rintro ⟨-, hpairs⟩ c hc d hd p e hec hed
    obtain ⟨a, ha, hca⟩ := List.mem_flatMap.mp hc
    obtain ⟨b, hb, hdb⟩ := List.mem_flatMap.mp hd
    obtain ⟨hep, hcp⟩ := parent_of_pair hwf (hec.trans (List.sublist_append_right _ _))
    obtain rfl := parent_unique hcp (hparent a ha c (List.mem_filter.mp hca).1).2
    -- the node below the earlier sibling is reached from a node below the parent of both
    obtain ⟨k, hk, hke⟩ := TransGen.head'_iff.mp hed
    obtain rfl := parent_unique hk (hparent b hb d (List.mem_filter.mp hdb).1).2
    have hbelow : Below t p k := TransGen.tail' hke hep
    have hdc : Precedes t d c := .beside (hec.trans (List.sublist_append_right _ _)) hed.to_reflTransGen .refl
    rcases pair_or ha hb (fun he => not_below_self hwf (he ▸ hbelow)) with h | h
    · exact (List.pairwise_iff_forall_sublist.mp hpairs h c hca d hdb).asymm hwf hdc
    · exact (List.pairwise_iff_forall_sublist.mp hns.pairwise h).asymm hwf (.below hbelow)
  · intro hnone
    apply pairwise_step hwf hns hdown
    intro a ha b hb hab x hx y hy
    obtain ⟨hxaxis, hxkeeps⟩ := List.mem_filter.mp hx
    obtain ⟨hyaxis, hykeeps⟩ := List.mem_filter.mp hy
    obtain ⟨e, he, hbe⟩ := exists_child (hns.present b hb) (hns.not_isAttr ha hab hb) hab
    have hye : Below t e y := TransGen.head' (hparent b hb y hyaxis).2 hbe
    -- the lower node stands below a child of the upper one: that child itself, an earlier one, or a later one
    by_cases hxe : x = e
    · rw [hxe]
      exact .inr (.below hye)
    · rw [hs] at hxaxis
      rcases pair_or hxaxis ((NodeRef.mem_children hwf).mpr he) hxe with h | h
      · exact .inr (.beside (h.trans (List.sublist_append_right _ _)) .refl hye.to_reflTransGen)
      · rw [← hs] at hxaxis
        have hxs := mem_step.mpr ⟨a, ha, hxaxis, hxkeeps⟩
        have hys := mem_step.mpr ⟨b, hb, hyaxis, hykeeps⟩
        exact absurd hye (hnone x hxs y hys a e h)

/-! ## Queries -/

theorem ordered_singleton (hn : n.Present t) : Ordered t [n] where
  present := fun _ hm => List.mem_singleton.mp hm ▸ hn
  pairwise := List.pairwise_singleton _ _
  uniform := by
    by_cases h : n.IsAttr
    · exact .inl fun _ hm => List.mem_singleton.mp hm ▸ h
    · exact .inr fun _ hm => List.mem_singleton.mp hm ▸ h

theorem apart_singleton (hwf : t.WellFormed) : Apart t [n] := by
  intro a ha b hb
  rw [List.mem_singleton.mp ha, List.mem_singleton.mp hb]
  exact not_below_self hwf

theorem present_documentOf (hwf : t.WellFormed) (n : NodeRef) : (n.documentOf t).Present t := by
  obtain ⟨root, hroot, hinside⟩ := exists_inside hwf n
  show t.parent? (t.rootOf n.anchor) = none
  rw [rootOf_of_under hwf hroot hinside]
  exact hroot

variable {source : String} {absolute : Bool} {steps : List Step}

/-- A path selects what its steps lead to, and its text is the text of the node that they come to first. -/
theorem select_path (hparse : Expr.parse source = .ok (.path absolute steps)) :
    select t n source = .ok ns ↔ walk t steps [if absolute then n.documentOf t else n] = .ok ns := by
  unfold select run
  rw [hparse]
  simp only [eval]
  cases walk t steps [if absolute then n.documentOf t else n] with
  | error cause =>
    constructor <;> intro h <;> cases h
  | ok ms =>
    constructor <;> intro h <;> cases h <;> rfl

theorem evaluate_path (hparse : Expr.parse source = .ok (.path absolute steps)) (h : select t n source = .ok ns) :
    evaluate t n source = .ok ((ns.head?.map fun m => m.stringValue t).getD "") := by
  have hwalk := (select_path hparse).mp h
  unfold evaluate run
  rw [hparse]
  simp only [eval, hwalk]
  rfl

/-- Location paths over the axes that lead downward, with predicates that ask for no places.  A path selects the
    nodes that its steps lead to; it fails only where a predicate fails.  If no step to the children comes behind a
    step to all that stands below, the nodes are in document order.  A step to the children that is the first one
    there keeps that order if and only if no selected node stands below an earlier sibling of another one.  Where
    the nodes are in document order, the text of the path is the text of the first of them in that order. -/
theorem paths_in_document_order (hwf : t.WellFormed) (hn : n.Present t)
    (hparse : Expr.parse source = .ok (.path absolute steps)) (hdown : ∀ s ∈ steps, s.axis.Downward)
    (hplain : ∀ s ∈ steps, s.Plain) :
    ((∀ s ∈ steps, ∀ p ∈ s.predicates, ∀ k, ∃ v, eval t p ⟨k, 1, 1⟩ = .ok v) → ∃ ns, select t n source = .ok ns)
      ∧ ∀ ns, select t n source = .ok ns →
        (∀ m, m ∈ ns ↔ Leads t steps (if absolute then n.documentOf t else n) m)
          ∧ (ChildrenFirst steps → ns.Pairwise (Precedes t))
          ∧ (∀ first last, steps = first ++ [last] → ChildrenFirst first → last.axis = .child →
              (ns.Pairwise (Precedes t)
                ↔ ∀ c ∈ ns, ∀ d ∈ ns, ∀ p e : NodeRef, [e, c].Sublist (p.children t) → ¬ Below t e d))
          ∧ (ns.Pairwise (Precedes t) → (ns = [] → evaluate t n source = .ok "")
              ∧ ∀ m ∈ ns, (∀ k ∈ ns, k ≠ m → Precedes t m k) → evaluate t n source = .ok (m.stringValue t)) := by
  let start := if absolute then n.documentOf t else n
  have hstart : start.Present t := by
    show NodeRef.Present t (if absolute then n.documentOf t else n)
    split
    · exact present_documentOf hwf n
    · exact hn
  refine ⟨fun htotal => ?_, fun ns hns => ⟨fun m => ?_, fun hsteps => ?_, ?_, fun hpairwise => ⟨?_, ?_⟩⟩⟩
  · obtain ⟨ns, hwalk⟩ := walk_total hplain htotal [start]
    exact ⟨ns, (select_path hparse).mpr hwalk⟩
  · rw [mem_walk hwf hplain ((select_path hparse).mp hns)]
    simp
  · exact (walk_ordered hwf hplain hdown (ordered_singleton hstart) (.inr ⟨apart_singleton hwf, hsteps⟩)
      ((select_path hparse).mp hns)).pairwise
  · rintro first last rfl hfirst hlast
    obtain ⟨ks, hks, hms⟩ := walk_append ((select_path hparse).mp hns)
    have hordered := walk_ordered hwf (fun s hs => hplain s (List.mem_append_left _ hs))
      (fun s hs => hdown s (List.mem_append_left _ hs)) (ordered_singleton hstart)
      (.inr ⟨apart_singleton hwf, hfirst⟩) hks
    have hstep := walk_cons (hplain last (by simp)) hms
    rw [walk] at hstep
    cases hstep
    exact pairwise_children_iff hwf hordered hlast
  · rintro rfl
    exact evaluate_path hparse hns
  · intro m hm hfirst
    rw [evaluate_path hparse hns]
    cases ns with
    | nil => cases hm
    | cons k ks =>
      rcases List.mem_cons.mp hm with rfl | hlater
      · rfl
      · have hkm := (List.pairwise_cons.mp hpairwise).1 m hlater
        have hne : k ≠ m := by
          rintro rfl
          exact hkm.asymm hwf hkm
        exact ((hfirst k List.mem_cons_self hne).asymm hwf hkm).elim

/-- In a document with a field in a group and a field behind the group, the fields come in document order behind
    `descendant`, with a predicate that looks at their texts. -/
theorem paths_in_document_order_of_fields :
    let t := Tree.ofElement (.mk "f" [] "" .none
      [.mk "a" [] "" .none [.mk "item" [] "1" .none []], .mk "item" [] "2" .none []])
    select t (.element 0) "descendant::item[text()]" = .ok [.element 2, .element 3]
      ∧ [.element 2, .element 3].Pairwise (Precedes t)
      ∧ evaluate t (.element 0) "descendant::item[text()]" = .ok "1" := by
  intro t
  have hselect : select t (.element 0) "descendant::item[text()]" = .ok [.element 2, .element 3] := by cbv
  have hparse : Expr.parse "descendant::item[text()]"
      = .ok (.path false [.mk .descendant (.named "item") [.path false [.mk .child .text []]]]) := by cbv
  have hdown : ∀ s ∈ [Step.mk .descendant (.named "item") [.path false [.mk .child .text []]]], s.axis.Downward := by
    intro s hs
    rw [List.mem_singleton.mp hs]
    simp [Step.axis, Axis.Downward]
  have hplain : ∀ s ∈ [Step.mk .descendant (.named "item") [.path false [.mk .child .text []]]], s.Plain := by
    intro s hs p hp
    rw [List.mem_singleton.mp hs] at hp
    rw [List.mem_singleton.mp hp]
    rfl
  obtain ⟨-, hmain⟩ :=
    paths_in_document_order (n := .element 0) (Tree.grafted_ofElement _).wellFormed trivial hparse hdown hplain
  obtain ⟨-, hpairwise, -, htext⟩ := hmain _ hselect
  have hordered := hpairwise (List.pairwise_singleton _ _)
  have hfirst : Precedes t (.element 2) (.element 3) := (List.pairwise_cons.mp hordered).1 _ List.mem_cons_self
  have hvalue : (NodeRef.element 2).stringValue t = "1" := by decide +kernel
  refine ⟨hselect, hordered, ?_⟩
  rw [← hvalue]
  refine (htext hordered).2 _ List.mem_cons_self fun k hk hne => ?_
  simp only [List.mem_cons, List.not_mem_nil, or_false] at hk
  rw [hk.resolve_left hne]
  exact hfirst

/-- The same fields behind `//`: the one behind the group is selected first, so the text is the text of the last
    one in document order. -/
theorem children_of_descendants_out_of_order :
    let t := Tree.ofElement (.mk "f" [] "" .none
      [.mk "a" [] "" .none [.mk "item" [] "1" .none []], .mk "item" [] "2" .none []])
    select t (.element 0) "//item" = .ok [.element 3, .element 2]
      ∧ evaluate t (.element 0) "//item" = .ok "2"
      ∧ Precedes t (.element 2) (.element 3) ∧ (NodeRef.element 2).stringValue t = "1"
      ∧ ¬ [.element 3, .element 2].Pairwise (Precedes t) := by
  intro t
  have hbelow : ReflTransGen (Parent t) (.element 2) (.element 1) := .single (.element (by decide +kernel))
  have hfirst : Precedes t (.element 2) (.element 3) :=
    .beside (p := .element 0) (a := .element 1) (b := .element 3) (by decide +kernel) hbelow .refl
  have hvalue : (NodeRef.element 2).stringValue t = "1" := by decide +kernel
  refine ⟨by cbv, by cbv, hfirst, hvalue, fun hpairwise => ?_⟩
  have hlast := (List.pairwise_cons.mp hpairwise).1 _ List.mem_cons_self
  exact hfirst.asymm (Tree.grafted_ofElement _).wellFormed hlast

end Stencil.Query
