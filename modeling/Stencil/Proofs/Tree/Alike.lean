/-
  Copies of whole documents, wherever they stand.

  Two trees can hold the same document in different slots.  `Alike P f t t'` says so: `P` is a union of
  documents of `t`, and `f` takes each of its nodes to the one of `t'` that stands for it, links and all.
  What is read off a document by following links is then the same on both sides: the nodes below and
  above, texts, places among siblings, and the element as a whole.

  A document that is put into two trees is alike in them (`exists_alike`).  It stays so when the same
  change is made on both sides, also if the change cuts it into several documents (`Alike.setValue`).
-/
import Stencil.Proofs.Tree.Frame

set_option autoImplicit false

namespace Stencil.Tree

variable {t t' : Tree} {P : NodeId → Prop} {f : NodeId → NodeId} {a c m n p root root' : NodeId}

/-! ## Recursion along the links -/

namespace WellFormed

/-- What holds of a node if it holds of its children holds of every node. -/
theorem induction_below (h : WellFormed t) {motive : NodeId → Prop}
    (step : ∀ n, (∀ c ∈ t.children n, motive c) → motive n) (n : NodeId) : motive n := by
  obtain ⟨rank, hrank⟩ := h.exists_rank
  refine (measure rank).wf.induction (C := motive) n fun m ih => step m fun c hc => ih c ?_
  exact hrank c m (h.mem_children.mp hc)

/-- What holds of a node if it holds of its parent holds of every node. -/
theorem induction_above (h : WellFormed t) {motive : NodeId → Prop}
    (step : ∀ n, (∀ p, t.parent? n = some p → motive p) → motive n) (n : NodeId) : motive n := by
  refine (measure fun n => (t.ancestors n).length).wf.induction (C := motive) n
    fun m ih => step m fun p hp => ih p ?_
  show (t.ancestors p).length < (t.ancestors m).length
  rw [h.ancestors_of_parent hp, List.length_cons]
  exact Nat.lt_succ_self _

/-- A node without all slots above it stands in a free slot or has room for more below it. -/
theorem children_of_full (h : WellFormed t) (hn : t.nodes.size ≤ (t.ancestors n).length) :
    t.children n = [] := by
  refine (h.bare fun hl => ?_).1
  exact absurd (h.length_ancestorsWithin_lt hl t.nodes.size) (Nat.not_lt.mpr hn)

theorem descendantsWithin_succ (h : WellFormed t) {k : Nat}
    (hk : t.nodes.size ≤ k + (t.ancestors n).length) :
    t.descendantsWithin (k + 1) n = t.descendantsWithin k n := by
  induction k generalizing n with
  | zero =>
    rw [descendantsWithin, descendantsWithin, h.children_of_full (by omega)]
    rfl
  | succ k ih =>
    rw [descendantsWithin, descendantsWithin]
    refine congrArg List.flatten (List.map_congr_left fun c hc => ?_)
    rw [ih ?_]
    rw [h.ancestors_of_parent (h.mem_children.mp hc), List.length_cons]
    omega

theorem descendants_eq (h : WellFormed t) (n : NodeId) :
    t.descendants n = (t.children n).flatMap fun c => c :: t.descendants c := by
  unfold descendants
  rw [← h.descendantsWithin_succ (n := n) (Nat.le_add_right _ _), descendantsWithin]

end WellFormed

/-! ## The element at a node -/

mutual

/-- A node holds one element only. -/
theorem Holds.unique : ∀ {e e' : Element} {id : NodeId}, Holds t id e → Holds t id e' → e = e'
  | .mk .., .mk .., id, h, h' => by
    rw [Holds] at h h'
    obtain ⟨hc, hs⟩ := h
    obtain ⟨hc', hs'⟩ := h'
    rw [hc] at hc'
    cases hc'
    rw [HoldsAll.unique hs hs']

theorem HoldsAll.unique : ∀ {es es' : List Element} {ids : List NodeId}, HoldsAll t ids es →
    HoldsAll t ids es' → es = es'
  | [], [], _, _, _ => rfl
  | [], _ :: _, [], _, h' => by rw [HoldsAll] at h'; exact h'.elim
  | [], _ :: _, _ :: _, h, _ => by rw [HoldsAll] at h; exact h.elim
  | _ :: _, [], [], h, _ => by rw [HoldsAll] at h; exact h.elim
  | _ :: _, [], _ :: _, _, h' => by rw [HoldsAll] at h'; exact h'.elim
  | _ :: _, _ :: _, [], h, _ => by rw [HoldsAll] at h; exact h.elim
  | e :: es, e' :: es', i :: is, h, h' => by
    rw [HoldsAll] at h h'
    rw [Holds.unique h.1 h'.1, HoldsAll.unique h.2 h'.2]

end

theorem Holds.eq_element {e : Element} (h : Holds t n e) (hwf : WellFormed t) : t.element n = e :=
  (hwf.holds_element n).unique h

theorem WellFormed.element_eq (h : WellFormed t) (n : NodeId) :
    t.element n
      = .mk (t.name n) (t.node n).attrs (t.text n) (t.computed n) ((t.children n).map t.element) := by
  refine Holds.eq_element ?_ h
  rw [Holds]
  exact ⟨rfl, holdsAll_map fun c _ => h.holds_element c⟩

/-! ## Copies of documents -/

theorem WellFormed.content_setValue (h : WellFormed t) {id : NodeId} (hid : t.Live id) (text : String) :
    (t.setValue id text).content n = if n = id then { t.content n with text } else t.content n := by
  unfold Tree.content
  rw [h.node_setValue]
  by_cases he : n = id
  · subst he
    rw [if_neg fun hp => h.parent_ne hp rfl, if_pos ⟨rfl, hid.1⟩, if_pos rfl]
  · rw [if_neg he]
    split
    · rfl
    · rw [if_neg fun hand => he hand.1]

theorem findIdx?_congr {α : Type} {xs : List α} {g k : α → Bool} (h : ∀ x ∈ xs, g x = k x) :
    xs.findIdx? g = xs.findIdx? k := by
  induction xs with
  | nil => rfl
  | cons x xs ih =>
    rw [List.findIdx?_cons, List.findIdx?_cons, h x List.mem_cons_self,
      ih fun y hy => h y (List.mem_cons_of_mem _ hy)]

/-- `f` takes each node of `P`, which are whole documents of `t`, to the node of `t'` that stands for
    it. -/
structure Alike (P : NodeId → Prop) (f : NodeId → NodeId) (t t' : Tree) : Prop where
  wellFormed : WellFormed t
  copy_wellFormed : WellFormed t'
  closed : Closed t P
  live : ∀ n, P n → t'.Live (f n)
  injective : ∀ m n, P m → P n → f m = f n → m = n
  content : ∀ n, P n → t'.content (f n) = t.content n
  children : ∀ n, P n → t'.children (f n) = (t.children n).map f
  parent? : ∀ n, P n → t'.parent? (f n) = (t.parent? n).map f

theorem Closed.child (hc : Closed t P) (hwf : WellFormed t) (hn : P n) (h : c ∈ t.children n) : P c :=
  hc.down n c hn (hwf.mem_children.mp h)

/-- A closed set that holds a node holds all that stands below it. -/
theorem Closed.below (hc : Closed t P) (ha : P a) (hu : Under t a n) : P n := by
  induction hu with
  | self => exact ha
  | child hp _ ih => exact hc.down _ _ ih hp

/-- Documents that are kept are alike before and after. -/
theorem Keeps.alike (h : Keeps P t t') (hwf : WellFormed t) (hwf' : WellFormed t') (hc : Closed t P) :
    Alike P id t t' where
  wellFormed := hwf
  copy_wellFormed := hwf'
  closed := hc
  live := fun n hn => (h n hn).1
  injective := fun _ _ _ _ he => he
  content := fun n hn => by unfold Tree.content; rw [id_eq, (h n hn).2]
  children := fun n hn => by rw [id_eq, List.map_id, h.children hn]
  parent? := fun n hn => by rw [id_eq, Option.map_id, h.parent? hn, id_eq]

namespace Alike

variable {id : NodeId} (h : Alike P f t t')

include h

theorem name (hn : P n) : t'.name (f n) = t.name n :=
  show (t'.content (f n)).name = (t.content n).name by rw [h.content n hn]

theorem attrs (hn : P n) : (t'.node (f n)).attrs = (t.node n).attrs :=
  show (t'.content (f n)).attrs = (t.content n).attrs by rw [h.content n hn]

theorem text (hn : P n) : t'.text (f n) = t.text n :=
  show (t'.content (f n)).text = (t.content n).text by rw [h.content n hn]

theorem computed (hn : P n) : t'.computed (f n) = t.computed n :=
  show (t'.content (f n)).computed = (t.content n).computed by rw [h.content n hn]

theorem attr? (hn : P n) (name : String) : t'.attr? (f n) name = t.attr? n name := by
  unfold Tree.attr?
  rw [h.attrs hn]

/-! ### What stands below and above -/

theorem descendants (hn : P n) : t'.descendants (f n) = (t.descendants n).map f := by
  revert hn
  refine h.wellFormed.induction_below (motive := fun n => P n →
    t'.descendants (f n) = (t.descendants n).map f) (fun n ih hn => ?_) n
  rw [h.copy_wellFormed.descendants_eq, h.wellFormed.descendants_eq, h.children n hn,
    List.flatMap_map, List.map_flatMap]
  refine congrArg List.flatten (List.map_congr_left fun c hc => ?_)
  rw [ih c hc (h.closed.child h.wellFormed hn hc), List.map_cons]

theorem ancestors (hn : P n) : t'.ancestors (f n) = (t.ancestors n).map f := by
  revert hn
  refine h.wellFormed.induction_above (motive := fun n => P n →
    t'.ancestors (f n) = (t.ancestors n).map f) (fun n ih hn => ?_) n
  have hp' := h.parent? n hn
  cases hp : t.parent? n with
  | none =>
    rw [hp] at hp'
    rw [ancestors_of_root hp, ancestors_of_root hp', List.map_nil]
  | some p =>
    rw [hp] at hp'
    rw [h.wellFormed.ancestors_of_parent hp, h.copy_wellFormed.ancestors_of_parent hp',
      ih p hp (h.closed.up n p hn hp), List.map_cons]

theorem rootOf (hn : P n) : t'.rootOf (f n) = f (t.rootOf n) := by
  unfold Tree.rootOf
  rw [h.ancestors hn, List.getLast?_map]
  cases (t.ancestors n).getLast? <;> rfl

theorem mem_of_mem_descendants (hn : P n) (hm : m ∈ t.descendants n) : P m :=
  h.closed.below hn (h.wellFormed.mem_descendants.mp hm).1

theorem mem_of_mem_ancestors (hn : P n) (hm : m ∈ t.ancestors n) : P m :=
  h.closed.toUpward.of_under (h.wellFormed.mem_ancestors.mp hm).1 hn

theorem rootOf_mem (hn : P n) : P (t.rootOf n) := by
  unfold Tree.rootOf
  cases hl : (t.ancestors n).getLast? with
  | none => exact hn
  | some r => exact h.mem_of_mem_ancestors hn (List.mem_of_getLast? hl)

theorem stringValue (hn : P n) : t'.stringValue (f n) = t.stringValue n := by
  unfold Tree.stringValue
  rw [h.text hn, h.descendants hn, List.map_map]
  refine congrArg (fun l => String.join (t.text n :: l)) (List.map_congr_left fun m hm => ?_)
  exact h.text (h.mem_of_mem_descendants hn hm)

theorem element (hn : P n) : t'.element (f n) = t.element n := by
  revert hn
  refine h.wellFormed.induction_below (motive := fun n => P n →
    t'.element (f n) = t.element n) (fun n ih hn => ?_) n
  rw [h.copy_wellFormed.element_eq, h.wellFormed.element_eq, h.name hn, h.attrs hn, h.text hn,
    h.computed hn, h.children n hn, List.map_map]
  congr 1
  exact List.map_congr_left fun c hc => ih c hc (h.closed.child h.wellFormed hn hc)

/-! ### Siblings -/

theorem position? (hn : P n) :
    t'.position? (f n) = (t.position? n).map fun x => (f x.1, x.2) := by
  unfold Tree.position?
  rw [h.parent? n hn]
  cases hp : t.parent? n with
  | none => rfl
  | some p =>
    have hP : P p := h.closed.up n p hn hp
    have hi : (t'.children (f p)).findIdx? (· == f n) = (t.children p).findIdx? (· == n) := by
      rw [h.children p hP, List.findIdx?_map]
      refine findIdx?_congr fun c hc => ?_
      rw [Function.comp_apply, Bool.eq_iff_iff, beq_iff_eq, beq_iff_eq]
      exact ⟨h.injective c n (h.closed.child h.wellFormed hP hc) hn, fun he => he ▸ rfl⟩
    simp only [Option.map_some, hi, Option.map_map]
    rfl

theorem parent_mem_of_position? {i : Nat} (hn : P n) (hp : t.position? n = some (p, i)) : P p := by
  refine h.closed.up n p hn ?_
  unfold Tree.position? at hp
  cases hq : t.parent? n with
  | none => rw [hq] at hp; cases hp
  | some q =>
    rw [hq] at hp
    obtain ⟨j, _, hj⟩ := Option.map_eq_some_iff.mp hp
    rw [(Prod.mk.inj hj).1]

theorem followingSiblings (hn : P n) :
    t'.followingSiblings (f n) = (t.followingSiblings n).map f := by
  unfold Tree.followingSiblings
  rw [h.position? hn]
  cases hp : t.position? n with
  | none => rfl
  | some x => simp only [Option.map_some, h.children x.1 (h.parent_mem_of_position? hn hp), List.map_drop]

theorem precedingSiblings (hn : P n) :
    t'.precedingSiblings (f n) = (t.precedingSiblings n).map f := by
  unfold Tree.precedingSiblings
  rw [h.position? hn]
  cases hp : t.position? n with
  | none => rfl
  | some x =>
    simp only [Option.map_some, h.children x.1 (h.parent_mem_of_position? hn hp), List.map_take,
      List.map_reverse]

/-! ### The same change on both sides -/

/-- A change of contents. -/
theorem modify (hid : P id) {g : Node → Node} (hch : ∀ x, (g x).children = x.children)
    (hp : ∀ x, (g x).parent = x.parent)
    (hg : ∀ x, { g x with children := [], parent := none }
      = g { x with children := [], parent := none }) :
    Alike P f (t.modify id g) (t'.modify (f id) g) where
  wellFormed := h.wellFormed.modify hch hp id
  copy_wellFormed := h.copy_wellFormed.modify hch hp (f id)
  closed :=
    { live := fun n hn => (live_modify t id n g).mpr (h.closed.live n hn)
      up := fun n p hn hq => h.closed.up n p hn (by rwa [parent?_modify hp] at hq)
      down := fun p c hP hq => h.closed.down p c hP (by rwa [parent?_modify hp] at hq) }
  live := fun n hn => (live_modify t' (f id) (f n) g).mpr (h.live n hn)
  injective := h.injective
  content := by
    intro n hn
    by_cases he : id = n
    · subst he
      unfold Tree.content
      rw [node_modify, node_modify, if_pos ⟨rfl, (h.live id hn).1⟩,
        if_pos ⟨rfl, (h.closed.live id hn).1⟩]
      rw [hg, hg]
      exact congrArg g (h.content id hn)
    · have he' : f id ≠ f n := fun hf => he (h.injective id n hid hn hf)
      unfold Tree.content
      rw [node_modify_of_ne he, node_modify_of_ne he']
      exact h.content n hn
  children := fun n hn => by rw [children_modify hch, children_modify hch, h.children n hn]
  parent? := fun n hn => by rw [parent?_modify hp, parent?_modify hp, h.parent? n hn]

theorem setText (hid : P id) (text : String) :
    Alike P f (t.setText id text) (t'.setText (f id) text) :=
  h.modify hid (fun _ => rfl) (fun _ => rfl) fun _ => rfl

theorem setAttr (hid : P id) (name value : String) :
    Alike P f (t.setAttr id name value) (t'.setAttr (f id) name value) :=
  h.modify hid (fun _ => rfl) (fun _ => rfl) fun _ => rfl

/-- A text becomes the whole content of a node.  What stood below it are documents of their own then. -/
theorem setValue (hid : P id) (text : String) :
    Alike P f (t.setValue id text) (t'.setValue (f id) text) where
  wellFormed := h.wellFormed.setValue id text
  copy_wellFormed := h.copy_wellFormed.setValue (f id) text
  closed :=
    { live := fun n hn => (live_setValue text).mpr (h.closed.live n hn)
      up := by
        intro n p hn hp
        rw [h.wellFormed.parent?_setValue] at hp
        split at hp
        · cases hp
        · exact h.closed.up n p hn hp
      down := by
        intro p c hP hp
        rw [h.wellFormed.parent?_setValue] at hp
        split at hp
        · cases hp
        · exact h.closed.down p c hP hp }
  live := fun n hn => (live_setValue text).mpr (h.live n hn)
  injective := h.injective
  content := by
    intro n hn
    rw [h.wellFormed.content_setValue (h.closed.live id hid), h.copy_wellFormed.content_setValue (h.live id hid),
      h.content n hn]
    by_cases he : n = id
    · rw [if_pos he, if_pos (by rw [he])]
    · rw [if_neg he, if_neg fun hf => he (h.injective n id hn hid hf)]
  children := by
    intro n hn
    rw [h.wellFormed.children_setValue, h.copy_wellFormed.children_setValue]
    by_cases he : n = id
    · rw [if_pos he, if_pos (by rw [he]), List.map_nil]
    · rw [if_neg he, if_neg fun hf => he (h.injective n id hn hid hf), h.children n hn]
  parent? := by
    intro n hn
    rw [h.wellFormed.parent?_setValue, h.copy_wellFormed.parent?_setValue, h.parent? n hn]
    by_cases he : t.parent? n = some id
    · rw [if_pos he, if_pos (by rw [he]; rfl), Option.map_none]
    · rw [if_neg he, if_neg]
      intro hf
      obtain ⟨q, hq, hfq⟩ := Option.map_eq_some_iff.mp hf
      exact he (by rw [hq, h.injective q id (h.closed.up n q hn hq) hid hfq])

end Alike

/-! ## One element in two trees -/

/-- `n` and `n'` are reached from two nodes on the same way down. -/
inductive Twin (t t' : Tree) (root root' : NodeId) : NodeId → NodeId → Prop
  | root : Twin t t' root root' root root'
  | child {p p' c c' : NodeId} {i : Nat} (parents : Twin t t' root root' p p')
      (place : (t.children p)[i]? = some c) (place' : (t'.children p')[i]? = some c') :
      Twin t t' root root' c c'

theorem HoldsAll.length_eq : ∀ {ids : List NodeId} {es : List Element}, HoldsAll t ids es →
    ids.length = es.length
  | [], [], _ => rfl
  | [], _ :: _, h => by rw [HoldsAll] at h; exact h.elim
  | _ :: _, [], h => by rw [HoldsAll] at h; exact h.elim
  | _ :: _, _ :: _, h => by
    rw [HoldsAll] at h
    rw [List.length_cons, List.length_cons, h.2.length_eq]

theorem HoldsAll.get : ∀ {ids : List NodeId} {es : List Element} {i : Nat} {e : Element},
    HoldsAll t ids es → ids[i]? = some c → es[i]? = some e → Holds t c e
  | [], _, _, _, _, hc, _ => by rw [List.getElem?_nil] at hc; cases hc
  | _ :: _, [], _, _, h, _, _ => by rw [HoldsAll] at h; exact h.elim
  | j :: js, d :: ds, 0, e, h, hc, he => by
    rw [HoldsAll] at h
    rw [List.getElem?_cons_zero, Option.some.injEq] at hc he
    exact hc ▸ he ▸ h.1
  | j :: js, d :: ds, i + 1, e, h, hc, he => by
    rw [HoldsAll] at h
    exact h.2.get (by rwa [List.getElem?_cons_succ] at hc) (by rwa [List.getElem?_cons_succ] at he)

namespace Twin

variable {n' m' : NodeId} {e : Element}

theorem symm (h : Twin t t' root root' n n') : Twin t' t root' root n' n := by
  induction h with
  | root => exact .root
  | child _ hc hc' ih => exact .child ih hc' hc

theorem trans {m : NodeId} (h : Twin t t' root root' n n') (h' : Twin t t' n n' m m') :
    Twin t t' root root' m m' := by
  induction h' with
  | root => exact h
  | child _ hc hc' ih => exact .child ih hc hc'

theorem under (h : Twin t t' root root' n n') (hwf : WellFormed t) : Under t root n := by
  induction h with
  | root => exact .self
  | child _ hc _ ih => exact .child (hwf.mem_children.mp (List.mem_of_getElem? hc)) ih

/-- Twins hold the same element, if the nodes that they are reached from do. -/
theorem holds (h : Twin t t' root root' n n') (hr : Holds t root e) (hr' : Holds t' root' e) :
    ∃ e, Holds t n e ∧ Holds t' n' e := by
  induction h with
  | root => exact ⟨e, hr, hr'⟩
  | @child p p' c c' i _ hc hc' ih =>
    obtain ⟨d, hd, hd'⟩ := ih
    have hlt : i < d.children.length := by
      rw [← hd.children.length_eq]
      exact (List.getElem?_eq_some_iff.mp hc).1
    exact ⟨d.children[i], hd.children.get hc (List.getElem?_eq_getElem hlt),
      hd'.children.get hc' (List.getElem?_eq_getElem hlt)⟩

theorem children_length (h : Twin t t' root root' n n') (hr : Holds t root e) (hr' : Holds t' root' e) :
    (t'.children n').length = (t.children n).length := by
  obtain ⟨d, hd, hd'⟩ := h.holds hr hr'
  rw [hd.children.length_eq, hd'.children.length_eq]

theorem exists_of_under (hu : Under t root n) (hwf : WellFormed t) (hr : Holds t root e)
    (hr' : Holds t' root' e) : ∃ n', Twin t t' root root' n n' := by
  induction hu with
  | self => exact ⟨root', .root⟩
  | @child p c hp _ ih =>
    obtain ⟨p', hp'⟩ := ih
    obtain ⟨i, hi⟩ := List.mem_iff_getElem?.mp (hwf.mem_children.mpr hp)
    have hlt : i < (t'.children p').length := by
      rw [hp'.children_length hr hr']
      exact (List.getElem?_eq_some_iff.mp hi).1
    exact ⟨_, .child hp' hi (List.getElem?_eq_getElem hlt)⟩

/-- A node of a document has one twin only. -/
theorem unique (h : Twin t t' root root' n n') (h' : Twin t t' root root' n m') (hwf : WellFormed t)
    (hroot : t.parent? root = none) : n' = m' := by
  have hnot : ∀ {p i : Nat}, (t.children p)[i]? ≠ some root := by
    intro p i hi
    have hp := hwf.mem_children.mp (List.mem_of_getElem? hi)
    rw [hroot] at hp
    cases hp
  induction h generalizing m' with
  | root =>
    cases h' with
    | root => rfl
    | child _ hc _ => exact absurd hc hnot
  | @child p p' c c' i _ hc hc' ih =>
    cases h' with
    | root => exact absurd hc hnot
    | @child q q' _ _ j hq hd hd' =>
      have hp := hwf.mem_children.mp (List.mem_of_getElem? hc)
      have hq' := hwf.mem_children.mp (List.mem_of_getElem? hd)
      obtain rfl : p = q := Option.some.inj (hp.symm.trans hq')
      obtain rfl : i = j := by
        refine (List.getElem?_inj (List.getElem?_eq_some_iff.mp hc).1 (hwf.children_nodup p)).mp ?_
        rw [hc, hd]
      obtain rfl := ih hq
      exact Option.some.inj (hc'.symm.trans hd')

end Twin

/-- Two documents that are copies of one element are alike. -/
theorem exists_alike {e : Element} (hwf : WellFormed t) (hwf' : WellFormed t') (hl : t.Live root)
    (hl' : t'.Live root') (hroot : t.parent? root = none) (hroot' : t'.parent? root' = none)
    (hr : Holds t root e) (hr' : Holds t' root' e) :
    ∃ f, Alike (Under t root) f t t' ∧ f root = root' := by
  have hex : ∀ n, ∃ n', Under t root n → Twin t t' root root' n n' := by
    intro n
    by_cases hu : Under t root n
    · obtain ⟨n', h⟩ := Twin.exists_of_under hu hwf hr hr'
      exact ⟨n', fun _ => h⟩
    · exact ⟨n, fun hu' => absurd hu' hu⟩
  obtain ⟨f, hf⟩ := Classical.skolem.mp hex
  have hfroot : f root = root' := (hf root .self).unique .root hwf hroot
  have hch : ∀ n, Under t root n → t'.children (f n) = (t.children n).map f := by
    intro n hn
    refine List.ext_getElem? fun i => ?_
    rw [List.getElem?_map]
    cases hc : (t.children n)[i]? with
    | none =>
      rw [Option.map_none, List.getElem?_eq_none_iff, (hf n hn).children_length hr hr']
      exact List.getElem?_eq_none_iff.mp hc
    | some c =>
      have hlt : i < (t'.children (f n)).length := by
        rw [(hf n hn).children_length hr hr']
        exact (List.getElem?_eq_some_iff.mp hc).1
      have hc' := List.getElem?_eq_getElem hlt
      have hcu : Under t root c := .child (hwf.mem_children.mp (List.mem_of_getElem? hc)) hn
      rw [hc', Option.map_some, (hf c hcu).unique (.child (hf n hn) hc hc') hwf hroot]
  refine ⟨f, ⟨hwf, hwf', closed_document hwf hl hroot, ?_, ?_, ?_, hch, ?_⟩, hfroot⟩
  · exact fun n hn => hwf'.live_of_under hl' ((hf n hn).symm.under hwf')
  · exact fun m n hm hn he => (hf m hm).symm.unique (he ▸ (hf n hn).symm) hwf' hroot'
  · intro n hn
    obtain ⟨d, hd, hd'⟩ := (hf n hn).holds hr hr'
    rw [hd.content, hd'.content]
  · intro n hn
    cases hp : t.parent? n with
    | none =>
      rw [hn.eq_of_root hp, hfroot]
      exact hroot'
    | some p =>
      have hpu : Under t root p := hn.of_parent hp fun he => by rw [he, hroot] at hp; cases hp
      rw [Option.map_some, ← hwf'.mem_children, hch p hpu]
      exact List.mem_map_of_mem (hwf.mem_children.mpr hp)

end Stencil.Tree
