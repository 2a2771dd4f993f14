/-
  What stands below what.

  `Under t a n` says that `n` is `a` or stands somewhere below it.  It is read off the parents alone, so
  it needs no bound on depths; the walks of `Tree.ancestors` and `Tree.descendants`, which have one,
  are shown to reach all of it in a well-formed tree (`ancestors_of_parent`, `mem_descendants`).

    * Without any assumption: `Under` is a preorder, and the nodes above one node form a chain.
    * In a well-formed tree: it is an order, the nodes at both ends of a link live, and the children
      of a node are exactly the nodes whose parent it is.
-/
import Stencil.Tree.Basic

set_option autoImplicit false

namespace Stencil.Tree

variable {t : Tree} {a b c n p : NodeId}

/-! ## Below, in any tree -/

/-- The node `a` and all nodes below it. -/
inductive Under (t : Tree) (a : NodeId) : NodeId → Prop
  | self : Under t a a
  | child {p c : NodeId} : t.parent? c = some p → Under t a p → Under t a c

theorem Under.trans (hab : Under t a b) (hbc : Under t b c) : Under t a c := by
  induction hbc with
  | self => exact hab
  | child hp _ ih => exact .child hp ih

theorem under_of_parent (h : t.parent? c = some p) : Under t p c := .child h .self

/-- Who stands below a node is the node itself or has a parent there. -/
theorem under_iff : Under t a n ↔ n = a ∨ ∃ p, t.parent? n = some p ∧ Under t a p := by
  constructor
  · rintro (_ | ⟨hp, h⟩)
    · exact .inl rfl
    · exact .inr ⟨_, hp, h⟩
  · rintro (rfl | ⟨p, hp, h⟩)
    · exact .self
    · exact .child hp h

/-- What stands above a node depends on the parents of the nodes above it only. -/
theorem under_congr {t' : Tree} (h : ∀ m, Under t m n → t'.parent? m = t.parent? m) :
    Under t' a n ↔ Under t a n := by
  constructor
  · intro hu
    induction hu with
    | self => exact .self
    | @child p c hp _ ih =>
      rw [h c .self] at hp
      exact .child hp (ih fun m hm => h m (.child hp hm))
  · intro hu
    induction hu with
    | self => exact .self
    | @child p c hp _ ih =>
      refine .child ?_ (ih fun m hm => h m (.child hp hm))
      rw [h c .self]
      exact hp

theorem Under.eq_of_root (hn : t.parent? n = none) (h : Under t a n) : n = a := by
  rcases under_iff.mp h with rfl | ⟨p, hp, _⟩
  · rfl
  · rw [hn] at hp; cases hp

/-- Below a node other than itself means below its parent. -/
theorem Under.of_parent (hp : t.parent? n = some p) (h : Under t a n) (hne : n ≠ a) : Under t a p := by
  rcases under_iff.mp h with rfl | ⟨q, hq, hu⟩
  · exact absurd rfl hne
  · rw [hp] at hq; cases hq; exact hu

/-- Of two nodes above a third, one is above the other. -/
theorem Under.comparable (ha : Under t a n) (hb : Under t b n) : Under t a b ∨ Under t b a := by
  induction ha with
  | self => exact .inr hb
  | child hp hu ih =>
    rcases under_iff.mp hb with rfl | ⟨q, hq, hub⟩
    · exact .inl (.child hp hu)
    · rw [hp] at hq; cases hq; exact ih hub

/-- A node stands below one root only. -/
theorem Under.root_unique {r s : NodeId} (hr : t.parent? r = none) (hs : t.parent? s = none)
    (hrn : Under t r n) (hsn : Under t s n) : r = s := by
  rcases hrn.comparable hsn with h | h
  · exact (h.eq_of_root hs).symm
  · exact h.eq_of_root hr

theorem mem_ancestorsWithin {k : Nat} (h : a ∈ t.ancestorsWithin k n) :
    ∃ p, t.parent? n = some p ∧ Under t a p := by
  induction k generalizing n with
  | zero => simp [ancestorsWithin] at h
  | succ k ih =>
    unfold ancestorsWithin at h
    split at h
    · rename_i p hp
      rcases List.mem_cons.mp h with rfl | h
      · exact ⟨_, hp, .self⟩
      · obtain ⟨q, hq, hu⟩ := ih h
        exact ⟨p, hp, .child hq hu⟩
    · simp at h

theorem ancestors_of_root (hn : t.parent? n = none) : t.ancestors n = [] := by
  unfold ancestors
  cases t.nodes.size with
  | zero => rfl
  | succ k => rw [ancestorsWithin, hn]

theorem stringValue_of_leaf (h : t.children n = []) : t.stringValue n = t.text n := by
  have hd : t.descendants n = [] := by
    unfold descendants
    cases t.nodes.size with
    | zero => rfl
    | succ k =>
      rw [descendantsWithin, h]
      rfl
  unfold stringValue
  rw [hd]
  simp

/-! ## Links of a well-formed tree -/

theorem node_of_le_size {i : NodeId} (h : t.nodes.size ≤ i) : t.node i = .unused := by
  unfold node
  rw [Array.getD_eq_getD_getElem?, Array.getElem?_eq_none h]
  rfl

namespace WellFormed

/-- What does not live is linked to nothing. -/
theorem bare (h : WellFormed t) (hn : ¬ t.Live n) : t.children n = [] ∧ t.parent? n = none := by
  by_cases hlt : n < t.nodes.size
  · have hf : n ∈ t.free := Decidable.byContradiction fun hf => hn ⟨hlt, hf⟩
    exact h.free_bare n hf
  · have hu := node_of_le_size (t := t) (Nat.le_of_not_lt hlt)
    exact ⟨by rw [children, hu]; rfl, by rw [parent?, hu]; rfl⟩

theorem live_of_parent (h : WellFormed t) (hp : t.parent? c = some p) : t.Live c ∧ t.Live p := by
  have hc : t.Live c := by
    refine Decidable.byContradiction fun hc => ?_
    rw [(h.bare hc).2] at hp
    cases hp
  exact ⟨hc, (h.child_of_parent c hc p hp).1⟩

/-- The children of a node are the nodes whose parent it is. -/
theorem mem_children (h : WellFormed t) : c ∈ t.children p ↔ t.parent? c = some p := by
  constructor
  · intro hc
    have hp : t.Live p := by
      refine Decidable.byContradiction fun hp => ?_
      rw [(h.bare hp).1] at hc
      cases hc
    exact (h.parent_of_child p hp c hc).2
  · intro hp
    exact (h.child_of_parent c (h.live_of_parent hp).1 p hp).2

theorem children_nodup (h : WellFormed t) (p : NodeId) : (t.children p).Nodup := by
  by_cases hp : t.Live p
  · exact h.nodup_children p hp
  · rw [(h.bare hp).1]
    exact List.nodup_nil

/-- A ranking of the nodes in which parents stand above their children. -/
theorem exists_rank (h : WellFormed t) :
    ∃ rank : NodeId → Nat, ∀ c p, t.parent? c = some p → rank c < rank p := by
  obtain ⟨rank, hrank⟩ := h.acyclic
  exact ⟨rank, fun c p hp => hrank c (h.live_of_parent hp).1 p hp⟩

/-- No node stands below its own child. -/
theorem not_under_parent (h : WellFormed t) (hp : t.parent? c = some p) : ¬ Under t c p := by
  obtain ⟨rank, hrank⟩ := h.exists_rank
  have hle : ∀ n, Under t c n → rank n ≤ rank c := by
    intro n hn
    induction hn with
    | self => exact Nat.le_refl _
    | child hq _ ih => exact Nat.le_trans (Nat.le_of_lt (hrank _ _ hq)) ih
  intro hu
  have h1 := hle p hu
  have h2 := hrank c p hp
  omega

theorem parent_ne (h : WellFormed t) (hp : t.parent? c = some p) : p ≠ c := by
  rintro rfl
  exact h.not_under_parent hp .self

theorem under_antisymm (h : WellFormed t) (hab : Under t a b) (hba : Under t b a) : a = b := by
  rcases under_iff.mp hab with rfl | ⟨p, hp, hu⟩
  · rfl
  · exact absurd (hba.trans hu) (h.not_under_parent hp)

/-- Different children of one parent have nothing below them in common. -/
theorem siblings_disjoint (h : WellFormed t) (hb : t.parent? b = some p) (hc : t.parent? c = some p)
    (hbn : Under t b n) (hcn : Under t c n) : b = c := by
  -- the two are comparable; if they differ, the lower one stands below the upper one's parent
  rcases hbn.comparable hcn with hu | hu
  · by_cases hne : c = b
    · exact hne.symm
    · exact absurd (hu.of_parent hc hne) (h.not_under_parent hb)
  · by_cases hne : b = c
    · exact hne
    · exact absurd (hu.of_parent hb hne) (h.not_under_parent hc)

/-- Nothing stands below a node without children. -/
theorem eq_of_under_leaf (h : WellFormed t) (hc : t.children a = []) (hu : Under t a n) : n = a := by
  induction hu with
  | self => rfl
  | child hp _ ih =>
    rw [ih, ← h.mem_children, hc] at hp
    cases hp

theorem live_of_under (h : WellFormed t) (ha : t.Live a) (hu : Under t a n) : t.Live n := by
  rcases under_iff.mp hu with rfl | ⟨p, hp, _⟩
  · exact ha
  · exact (h.live_of_parent hp).1

theorem live_of_under' (h : WellFormed t) (hn : t.Live n) (hu : Under t a n) : t.Live a := by
  induction hu with
  | self => exact hn
  | child hp _ ih => exact ih (h.live_of_parent hp).2

/-- A tree is well formed if children and parents agree, links join what lives, and so on; that free
    slots are bare follows. -/
theorem of_links (hmem : ∀ {c q}, c ∈ t.children q ↔ t.parent? c = some q)
    (hlive : ∀ {c q}, t.parent? c = some q → t.Live c ∧ t.Live q)
    (hnd : ∀ q, (t.children q).Nodup)
    (hrank : ∃ rank : NodeId → Nat, ∀ c q, t.parent? c = some q → rank c < rank q)
    (hfree : t.free.Nodup) (hlt : ∀ i ∈ t.free, i < t.nodes.size) : WellFormed t where
  parent_of_child := fun _ _ _ hc => ⟨(hlive (hmem.mp hc)).1, hmem.mp hc⟩
  child_of_parent := fun _ _ _ hq => ⟨(hlive hq).2, hmem.mpr hq⟩
  nodup_children := fun q _ => hnd q
  acyclic := by
    obtain ⟨rank, hrank⟩ := hrank
    exact ⟨rank, fun c _ q hq => hrank c q hq⟩
  nodup_free := hfree
  free_lt := hlt
  free_bare := by
    intro i hi
    constructor
    · refine List.eq_nil_iff_forall_not_mem.mpr fun c hc => ?_
      exact (hlive (hmem.mp hc)).2.2 hi
    · cases hp : t.parent? i with
      | none => rfl
      | some q => exact absurd hi (hlive hp).1.2

/-! ## The chain of parents -/

theorem not_mem_ancestorsWithin (h : WellFormed t) (k : Nat) : n ∉ t.ancestorsWithin k n := by
  intro hm
  obtain ⟨p, hp, hu⟩ := mem_ancestorsWithin hm
  exact h.not_under_parent hp hu

theorem nodup_ancestorsWithin (h : WellFormed t) (k : Nat) (n : NodeId) :
    (t.ancestorsWithin k n).Nodup := by
  induction k generalizing n with
  | zero => exact List.nodup_nil
  | succ k ih =>
    unfold ancestorsWithin
    split
    · exact List.nodup_cons.mpr ⟨h.not_mem_ancestorsWithin k, ih _⟩
    · exact List.nodup_nil

/-- A chain of parents is shorter than the number of slots. -/
theorem length_ancestorsWithin_lt (h : WellFormed t) (hn : t.Live n) (k : Nat) :
    (t.ancestorsWithin k n).length < t.nodes.size := by
  have hnd : (n :: t.ancestorsWithin k n).Nodup :=
    List.nodup_cons.mpr ⟨h.not_mem_ancestorsWithin k, h.nodup_ancestorsWithin k n⟩
  have hsub : ∀ x ∈ n :: t.ancestorsWithin k n, x ∈ List.range t.nodes.size := by
    intro x hx
    have hlive : t.Live x := by
      rcases List.mem_cons.mp hx with rfl | hx
      · exact hn
      · obtain ⟨p, hp, hu⟩ := mem_ancestorsWithin hx
        exact h.live_of_under' (h.live_of_parent hp).2 hu
    exact List.mem_range.mpr hlive.1
  have hlen := hnd.length_le_of_subset hsub
  rw [List.length_range, List.length_cons] at hlen
  omega

/-- A chain that ends before its bound is reached does not depend on the bound. -/
theorem ancestorsWithin_succ_of_lt {k : Nat} (h : (t.ancestorsWithin k n).length < k) :
    t.ancestorsWithin (k + 1) n = t.ancestorsWithin k n := by
  induction k generalizing n with
  | zero => exact absurd h (Nat.not_lt_zero _)
  | succ k ih =>
    rw [ancestorsWithin]
    conv => rhs; rw [ancestorsWithin]
    rw [ancestorsWithin] at h
    cases hp : t.parent? n with
    | none => rfl
    | some p =>
      simp only [hp] at h ⊢
      rw [ih (by simpa using h)]

theorem ancestors_of_parent (h : WellFormed t) (hp : t.parent? n = some p) :
    t.ancestors n = p :: t.ancestors p := by
  have hlt := h.length_ancestorsWithin_lt (h.live_of_parent hp).1 t.nodes.size
  have hs : t.ancestors n = t.ancestorsWithin (t.nodes.size + 1) n :=
    (ancestorsWithin_succ_of_lt hlt).symm
  rw [hs, ancestorsWithin, hp]
  rfl

/-- The nodes above a node. -/
theorem mem_ancestors (h : WellFormed t) : a ∈ t.ancestors n ↔ Under t a n ∧ a ≠ n := by
  constructor
  · intro hm
    obtain ⟨p, hp, hu⟩ := mem_ancestorsWithin hm
    refine ⟨.child hp hu, ?_⟩
    rintro rfl
    exact h.not_under_parent hp hu
  · rintro ⟨hu, hne⟩
    induction hu with
    | self => exact absurd rfl hne
    | @child p c hp hu ih =>
      rw [h.ancestors_of_parent hp]
      by_cases ha : a = p
      · subst ha; exact List.mem_cons_self
      · exact List.mem_cons_of_mem _ (ih ha)

/-! ## The nodes below -/

theorem under_of_mem_descendantsWithin (h : WellFormed t) {k : Nat}
    (hm : n ∈ t.descendantsWithin k a) : Under t a n ∧ n ≠ a := by
  induction k generalizing a with
  | zero => simp [descendantsWithin] at hm
  | succ k ih =>
    rw [descendantsWithin] at hm
    obtain ⟨c, hc, hm⟩ := List.mem_flatMap.mp hm
    have hp := h.mem_children.mp hc
    have hcn : Under t c n := by
      rcases List.mem_cons.mp hm with rfl | hm
      · exact .self
      · exact (ih hm).1
    refine ⟨(under_of_parent hp).trans hcn, ?_⟩
    rintro rfl
    exact h.not_under_parent hp hcn

theorem mem_descendantsWithin_child (h : WellFormed t) (hp : t.parent? c = some a) (k : Nat) :
    c ∈ t.descendantsWithin (k + 1) a := by
  rw [descendantsWithin]
  exact List.mem_flatMap.mpr ⟨c, h.mem_children.mpr hp, List.mem_cons_self⟩

theorem mem_descendantsWithin_succ (h : WellFormed t) (hp : t.parent? c = some n) {k : Nat}
    (hm : n ∈ t.descendantsWithin k a) : c ∈ t.descendantsWithin (k + 1) a := by
  induction k generalizing a with
  | zero => simp [descendantsWithin] at hm
  | succ k ih =>
    rw [descendantsWithin] at hm ⊢
    obtain ⟨x, hx, hm⟩ := List.mem_flatMap.mp hm
    refine List.mem_flatMap.mpr ⟨x, hx, List.mem_cons_of_mem _ ?_⟩
    rcases List.mem_cons.mp hm with rfl | hm
    · exact h.mem_descendantsWithin_child hp k
    · exact ih hm

theorem mem_descendantsWithin_of_mem_ancestorsWithin (h : WellFormed t) {k : Nat}
    (hm : a ∈ t.ancestorsWithin k n) : n ∈ t.descendantsWithin k a := by
  induction k generalizing n with
  | zero => simp [ancestorsWithin] at hm
  | succ k ih =>
    rw [ancestorsWithin] at hm
    split at hm
    · rename_i p hp
      rcases List.mem_cons.mp hm with rfl | hm
      · exact h.mem_descendantsWithin_child hp k
      · exact h.mem_descendantsWithin_succ hp (ih hm)
    · simp at hm

/-- The nodes below a node. -/
theorem mem_descendants (h : WellFormed t) : n ∈ t.descendants a ↔ Under t a n ∧ n ≠ a := by
  constructor
  · exact h.under_of_mem_descendantsWithin
  · rintro ⟨hu, hne⟩
    exact h.mem_descendantsWithin_of_mem_ancestorsWithin
      (h.mem_ancestors.mpr ⟨hu, fun he => hne he.symm⟩)

/-- In document order, a node comes before all that stand below it. -/
theorem pairwise_descendants (h : WellFormed t) (a : NodeId) :
    (t.descendants a).Pairwise fun m n => ¬ Under t n m := by
  unfold descendants
  generalize t.nodes.size = k
  induction k generalizing a with
  | zero => exact .nil
  | succ k ih =>
    rw [descendantsWithin, List.pairwise_flatMap]
    refine ⟨fun c _ => ?_, ?_⟩
    · refine List.pairwise_cons.mpr ⟨fun n hn hu => ?_, ih c⟩
      obtain ⟨hcn, hne⟩ := h.under_of_mem_descendantsWithin hn
      exact hne (h.under_antisymm hu hcn)
    · refine List.Pairwise.imp_of_mem ?_ (h.children_nodup a)
      intro b c hb hc hbc m hm n hn hu
      have under : ∀ {x z}, x ∈ z :: t.descendantsWithin k z → Under t z x := by
        intro x z hz
        rcases List.mem_cons.mp hz with rfl | hz
        · exact .self
        · exact (h.under_of_mem_descendantsWithin hz).1
      exact hbc (h.siblings_disjoint (h.mem_children.mp hb) (h.mem_children.mp hc) (under hm)
        ((under hn).trans hu))

theorem nodup_descendants (h : WellFormed t) (a : NodeId) : (t.descendants a).Nodup := by
  refine List.Pairwise.imp ?_ (h.pairwise_descendants a)
  rintro m n hu rfl
  exact hu .self

/-! ## Siblings -/

/-- A child divides the children of its parent. -/
theorem exists_split (h : WellFormed t) (hp : t.parent? n = some p) :
    ∃ before after, t.children p = before ++ n :: after :=
  List.append_of_mem (h.mem_children.mpr hp)

theorem position?_of_split (h : WellFormed t) {before after : List NodeId}
    (hs : t.children p = before ++ n :: after) : t.position? n = some (p, before.length) := by
  have hp : t.parent? n = some p := h.mem_children.mp (by rw [hs]; simp)
  have hnd := h.children_nodup p
  rw [hs] at hnd
  have hn : n ∉ before := by
    intro hm
    exact (List.nodup_append.mp hnd).2.2 n hm n List.mem_cons_self rfl
  have hfind : (before ++ n :: after).findIdx? (· == n) = some before.length := by
    rw [List.findIdx?_append]
    have hb : before.findIdx? (· == n) = none := by
      rw [List.findIdx?_eq_none_iff]
      intro x hx
      simp only [beq_eq_false_iff_ne]
      rintro rfl
      exact hn hx
    simp [hb, List.findIdx?_cons]
  unfold position?
  simp only [hp, hs, hfind, Option.map_some]

/-- A child stands at one place. -/
theorem split_unique (h : WellFormed t) {before after before' after' : List NodeId}
    (hs : t.children p = before ++ n :: after) (hs' : t.children p = before' ++ n :: after') :
    before = before' ∧ after = after' := by
  have hlength : before.length = before'.length := by
    have hplace := (h.position?_of_split hs).symm.trans (h.position?_of_split hs')
    exact congrArg Prod.snd (Option.some.inj hplace)
  obtain ⟨hbefore, hrest⟩ := List.append_inj (hs.symm.trans hs') hlength
  exact ⟨hbefore, (List.cons.inj hrest).2⟩

theorem followingSiblings_of_split (h : WellFormed t) {x y : List NodeId}
    (hs : t.children p = x ++ n :: y) : t.followingSiblings n = y := by
  unfold followingSiblings
  rw [h.position?_of_split hs]
  simp [hs]

theorem precedingSiblings_of_split (h : WellFormed t) {x y : List NodeId}
    (hs : t.children p = x ++ n :: y) : t.precedingSiblings n = x.reverse := by
  unfold precedingSiblings
  rw [h.position?_of_split hs]
  simp [hs]

theorem nextSibling?_of_split (h : WellFormed t) {x y : List NodeId}
    (hs : t.children p = x ++ n :: y) : t.nextSibling? n = y.head? := by
  unfold nextSibling?
  rw [h.position?_of_split hs]
  simp only [hs]
  rw [List.getElem?_append_right (by omega)]
  cases y <;> simp

theorem previousSibling?_of_split (h : WellFormed t) {x y : List NodeId}
    (hs : t.children p = x ++ n :: y) : t.previousSibling? n = x.getLast? := by
  unfold previousSibling?
  rw [h.position?_of_split hs, List.getLast?_eq_getElem?]
  cases x with
  | nil => rfl
  | cons a x =>
    show (t.children p)[x.length]? = (a :: x)[x.length]?
    rw [hs]
    exact List.getElem?_append_left (Nat.lt_succ_self x.length)

theorem mem_followingSiblings (h : WellFormed t) (hm : c ∈ t.followingSiblings n) :
    ∃ p, t.parent? n = some p ∧ t.parent? c = some p ∧ c ≠ n := by
  cases hp : t.parent? n with
  | none =>
    unfold followingSiblings position? at hm
    simp [hp] at hm
  | some p =>
    obtain ⟨before, after, hs⟩ := h.exists_split hp
    rw [h.followingSiblings_of_split hs] at hm
    refine ⟨p, rfl, h.mem_children.mp (by rw [hs]; simp [hm]), ?_⟩
    rintro rfl
    have hnd := h.children_nodup p
    rw [hs] at hnd
    exact (List.nodup_cons.mp (List.nodup_append.mp hnd).2.1).1 hm

theorem parent?_of_nextSibling? (h : WellFormed t) (hp : t.parent? n = some p)
    (hm : t.nextSibling? n = some c) : t.parent? c = some p := by
  obtain ⟨before, after, hs⟩ := h.exists_split hp
  rw [h.nextSibling?_of_split hs] at hm
  cases after with
  | nil => cases hm
  | cons x xs => cases hm; exact h.mem_children.mp (by rw [hs]; simp)

/-- What follows the next sibling follows the node. -/
theorem followingSiblings_nextSibling? (h : WellFormed t) (hm : t.nextSibling? n = some c) :
    t.followingSiblings n = c :: t.followingSiblings c := by
  cases hp : t.parent? n with
  | none =>
    unfold nextSibling? position? at hm
    simp [hp] at hm
  | some p =>
    obtain ⟨before, after, hs⟩ := h.exists_split hp
    rw [h.nextSibling?_of_split hs] at hm
    cases after with
    | nil => cases hm
    | cons x xs =>
      cases hm
      have hs' : t.children p = (before ++ [n]) ++ c :: xs := by rw [hs]; simp
      rw [h.followingSiblings_of_split hs, h.followingSiblings_of_split hs']

end WellFormed

theorem nextSibling?_of_root (hn : t.parent? n = none) : t.nextSibling? n = none := by
  unfold nextSibling? position?
  simp [hn]

end Stencil.Tree
