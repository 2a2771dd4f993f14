/-
  Slots are taken and given up without harm to what lives.

  A new node takes a slot in which nothing lives (`Allocated`), and no other node changes, but for the
  parent's list of children.  Giving up a node frees the slots of the node and of everything below it,
  and of nothing else (`Released`).
-/
import Stencil.Proofs.Tree.Moves

set_option autoImplicit false

namespace Stencil.Tree

variable {t t' : Tree} {id n p : NodeId}

/-! ## Taking a slot -/

/-- `after` is the tree `t` with a new node `id`. -/
structure Allocated (t : Tree) (node : Node) (id : NodeId) (after : Tree) : Prop where
  wellFormed : WellFormed after
  fresh : ¬ t.Live id
  live : ∀ n, after.Live n ↔ n = id ∨ t.Live n
  node_self : after.node id = node
  node_of_ne : ∀ n, n ≠ id → node.parent ≠ some n → after.node n = t.node n
  node_parent : ∀ p, node.parent = some p →
    after.node p = { t.node p with children := t.children p ++ [id] }

/-- A node in the next slot, before its parent knows. -/
theorem WellFormed.exists_placed (h : WellFormed t) (node : Node) :
    ∃ id placed,
      t.allocate node = (id, match node.parent with
        | some p => placed.modifyChildren p fun cs => cs ++ [id]
        | none => placed)
      ∧ ¬ t.Live id
      ∧ (∀ n, placed.Live n ↔ n = id ∨ t.Live n)
      ∧ (∀ n, placed.node n = if n = id then node else t.node n)
      ∧ placed.free.Nodup
      ∧ ∀ i ∈ placed.free, i < placed.nodes.size := by
  cases hf : t.free with
  | nil =>
    refine ⟨t.nodes.size, ⟨t.nodes.push node, []⟩, ?_, ?_, ?_, ?_, List.nodup_nil, ?_⟩
    · unfold allocate
      rw [hf]
      cases node.parent <;> rfl
    · exact fun hl => Nat.lt_irrefl _ hl.1
    · intro n
      unfold Live
      rw [hf]
      simp only [Array.size_push, List.not_mem_nil, not_false_eq_true, and_true]
      rw [Nat.lt_succ_iff_lt_or_eq, or_comm]
    · intro n
      unfold Tree.node
      simp only [Array.getD_eq_getD_getElem?, Array.getElem?_push]
      split <;> rfl
    · intro i hi; cases hi
  | cons i is =>
    have hi : i < t.nodes.size := h.free_lt i (by rw [hf]; simp)
    have hnd := h.nodup_free
    rw [hf] at hnd
    obtain ⟨hni, hnd⟩ := List.nodup_cons.mp hnd
    refine ⟨i, ⟨t.nodes.setIfInBounds i node, is⟩, ?_, ?_, ?_, ?_, hnd, ?_⟩
    · unfold allocate
      rw [hf]
      cases node.parent <;> rfl
    · exact fun hl => hl.2 (by rw [hf]; simp)
    · intro n
      unfold Live
      rw [hf]
      simp only [Array.size_setIfInBounds, List.mem_cons, not_or]
      constructor
      · rintro ⟨hlt, hn⟩
        by_cases he : n = i
        · exact .inl he
        · exact .inr ⟨hlt, he, hn⟩
      · rintro (rfl | ⟨hlt, _, hn⟩)
        · exact ⟨hi, hni⟩
        · exact ⟨hlt, hn⟩
    · intro n
      unfold Tree.node
      simp only [Array.getD_eq_getD_getElem?, Array.getElem?_setIfInBounds]
      by_cases he : i = n
      · subst he; simp [hi]
      · have he' : ¬ n = i := fun h' => he h'.symm
        simp [he, he']
    · intro j hj
      simp only [Array.size_setIfInBounds]
      exact h.free_lt j (by rw [hf]; exact List.mem_cons_of_mem _ hj)

/-- A tree in which a slot where nothing lived holds a new node, and the node's parent knows. -/
theorem WellFormed.allocated_of_views (h : WellFormed t) {node : Node} {after : Tree}
    (hchildren : node.children = []) (hparent : ∀ p, node.parent = some p → t.Live p)
    (hfresh : ¬ t.Live id) (hlive : ∀ n, after.Live n ↔ n = id ∨ t.Live n)
    (hself : after.node id = node)
    (hother : ∀ n, n ≠ id → node.parent ≠ some n → after.node n = t.node n)
    (hpar : ∀ p, node.parent = some p →
      after.node p = { t.node p with children := t.children p ++ [id] })
    (hnd : after.free.Nodup) (hlt : ∀ i ∈ after.free, i < after.nodes.size) :
    Allocated t node id after := by
  obtain ⟨hnoch, hnopar⟩ := h.bare hfresh
  have hpne : node.parent ≠ some id := fun he => hfresh (hparent id he)
  have hchild : ∀ q, after.children q
      = if node.parent = some q then t.children q ++ [id] else t.children q := by
    intro q
    by_cases hq : node.parent = some q
    · rw [if_pos hq, children, hpar q hq]
    · rw [if_neg hq]
      by_cases hqi : q = id
      · rw [hqi, hnoch, children, hself, hchildren]
      · rw [children, hother q hqi hq]; rfl
  have hparent? : ∀ c, after.parent? c = if c = id then node.parent else t.parent? c := by
    intro c
    by_cases hc : c = id
    · rw [if_pos hc, hc, parent?, hself]
    · rw [if_neg hc, parent?]
      by_cases hcp : node.parent = some c
      · rw [hpar c hcp]; rfl
      · rw [hother c hc hcp]; rfl
  have hid : ∀ q, id ∉ t.children q := by
    intro q hm
    rw [h.mem_children, hnopar] at hm
    cases hm
  have hmem : ∀ {c q}, c ∈ after.children q ↔ after.parent? c = some q := by
    intro c q
    rw [hchild, hparent?]
    by_cases hc : c = id
    · subst hc
      by_cases hq : node.parent = some q <;> simp [hq, hid q]
    · rw [if_neg hc, ← h.mem_children]
      by_cases hq : node.parent = some q <;> simp [hq, hc]
  refine ⟨.of_links hmem ?_ ?_ ?_ hnd hlt, hfresh, hlive, hself, hother, hpar⟩
  · intro c q hq
    rw [hlive, hlive]
    rw [hparent?] at hq
    split at hq
    · rename_i hc
      exact ⟨.inl hc, .inr (hparent q hq)⟩
    · exact ⟨.inr (h.live_of_parent hq).1, .inr (h.live_of_parent hq).2⟩
  · intro q
    rw [hchild]
    split
    · rw [List.nodup_append]
      refine ⟨h.children_nodup q, by simp, ?_⟩
      intro a ha b hb
      rw [List.mem_singleton.mp hb]
      rintro rfl
      exact hid q ha
    · exact h.children_nodup q
  · -- the new node has no children, so it may be ranked below everything
    obtain ⟨rank, hrank⟩ := h.exists_rank
    refine ⟨fun x => if x = id then 0 else rank x + 1, fun c q hq => ?_⟩
    have hqi : q ≠ id := by
      rintro rfl
      have hm := hmem.mpr hq
      rw [hchild, if_neg hpne, hnoch] at hm
      cases hm
    show (if c = id then 0 else rank c + 1) < (if q = id then 0 else rank q + 1)
    rw [if_neg hqi]
    rw [hparent?] at hq
    split
    · omega
    · rename_i hc
      rw [if_neg hc] at hq
      have := hrank c q hq
      omega

theorem WellFormed.allocated (h : WellFormed t) {node : Node} (hchildren : node.children = [])
    (hparent : ∀ p, node.parent = some p → t.Live p) :
    Allocated t node (t.allocate node).1 (t.allocate node).2 := by
  obtain ⟨id, placed, heq, hfresh, hlive, hnode, hnd, hlt⟩ := h.exists_placed node
  rw [heq]
  cases hp : node.parent with
  | none =>
    refine h.allocated_of_views hchildren hparent hfresh hlive ?_ ?_ ?_ hnd hlt
    · rw [hnode, if_pos rfl]
    · intro n hn _
      rw [hnode, if_neg hn]
    · intro q hq; rw [hp] at hq; cases hq
  | some q =>
    have hq : t.Live q := hparent q hp
    have hqi : q ≠ id := fun he => hfresh (he ▸ hq)
    have hqs : q < placed.nodes.size := ((hlive q).mpr (.inr hq)).1
    have hl : ∀ n, (placed.modifyChildren q fun cs => cs ++ [id]).Live n ↔ n = id ∨ t.Live n :=
      fun n => (live_modify _ _ _ _).trans (hlive n)
    refine h.allocated_of_views hchildren hparent hfresh hl ?_ ?_ ?_ hnd ?_
    · unfold modifyChildren
      rw [node_modify_of_ne hqi, hnode, if_pos rfl]
    · intro n hn hnp
      unfold modifyChildren
      rw [node_modify_of_ne fun he => hnp (hp.trans (congrArg some he)), hnode, if_neg hn]
    · intro q' hq'
      rw [hp] at hq'
      cases hq'
      unfold modifyChildren
      rw [node_modify, if_pos ⟨rfl, hqs⟩, hnode, if_neg hqi]
      rfl
    · intro i hi
      unfold modifyChildren
      rw [size_nodes_modify]
      exact hlt i hi

/-- A new element becomes a root. -/
theorem WellFormed.allocated_addElement (h : WellFormed t) (name : String) :
    Allocated t { Node.unused with name } (t.addElement none name).1 (t.addElement none name).2 :=
  h.allocated rfl fun _ hp => (nomatch hp)

theorem Allocated.setText {node : Node} (h : Allocated t node id t') (hp : node.parent ≠ some id)
    (text : String) : Allocated t { node with text } id (t'.setText id text) := by
  have hl : t'.Live id := (h.live id).mpr (.inl rfl)
  have hne : ∀ n, n ≠ id → (t'.setText id text).node n = t'.node n :=
    fun n hn => node_modify_of_ne fun he => hn he.symm
  refine ⟨h.wellFormed.setText id text, h.fresh, fun n => (live_modify ..).trans (h.live n), ?_, ?_, ?_⟩
  · rw [Tree.setText, node_modify, if_pos ⟨rfl, hl.1⟩, h.node_self]
  · intro n hn hnp
    rw [hne n hn]
    exact h.node_of_ne n hn hnp
  · intro q hq
    rw [hne q fun he => hp (he ▸ hq)]
    exact h.node_parent q hq

/-- `after` is the tree `t` with a new node `id` that has no children, put among the children of `p`,
    which are `cs` then. -/
structure Added (t : Tree) (p : NodeId) (cs : List NodeId) (new : Node) (id : NodeId)
    (after : Tree) : Prop where
  wellFormed : WellFormed after
  fresh : ¬ t.Live id
  live : ∀ n, t.Live n → after.Live n
  parent? : ∀ n, t.Live n → after.parent? n = t.parent? n
  content : ∀ n, t.Live n → after.content n = t.content n
  node : ∀ n, t.Live n → n ≠ p → after.node n = t.node n
  children : after.children p = cs
  self : after.node id = { new with parent := some p }

/-- A new root without children is put in. -/
theorem Allocated.added {node : Node} {cs : List NodeId} {after : Tree} (ha : Allocated t node id t')
    (hnp : node.parent = none) (hnc : node.children = []) (hp : t.Live p)
    (hput : PutIn t' p cs id after) : Added t p cs node id after := by
  have hlive : ∀ n, t.Live n → n ≠ id := fun n hn he => ha.fresh (he ▸ hn)
  have hnode : ∀ n, t.Live n → t'.node n = t.node n :=
    fun n hn => ha.node_of_ne n (hlive n hn) (by rw [hnp]; simp)
  have hcontent : ∀ n, t.Live n → after.content n = t.content n := by
    intro n hn
    rw [hput.content]
    unfold Tree.content
    rw [hnode n hn]
  have hparent : ∀ n, t.Live n → after.parent? n = t.parent? n := by
    intro n hn
    rw [hput.parent?, if_neg (hlive n hn), Tree.parent?, hnode n hn]
    rfl
  refine ⟨hput.wellFormed, ha.fresh, ?_, hparent, hcontent, ?_, ?_, ?_⟩
  · exact fun n hn => (hput.live n).mpr ((ha.live n).mpr (.inr hn))
  · intro n hn hne
    refine node_eq_of_views (hcontent n hn) ?_ (hparent n hn)
    rw [hput.children, if_neg hne, Tree.children, hnode n hn]
    rfl
  · rw [hput.children, if_pos rfl]
  · have e : after.node id
        = { after.content id with children := after.children id, parent := after.parent? id } := rfl
    rw [e, hput.content, hput.parent?, if_pos rfl, hput.children, if_neg (hlive p hp).symm]
    unfold Tree.content Tree.children
    rw [ha.node_self, hnc]

/-! ## Giving slots up -/

theorem node_foldl_vacate (ids : List NodeId) :
    (ids.foldl vacate t).node n = if n ∈ ids then .unused else t.node n := by
  induction ids generalizing t with
  | nil => simp
  | cons i is ih =>
    rw [List.foldl_cons, ih]
    have hi : (t.vacate i).node n = if n = i then .unused else t.node n := by
      show (t.modify i fun _ => .unused).node n = _
      rw [node_modify]
      by_cases hn : i = n
      · subst hn
        by_cases hlt : i < t.nodes.size
        · simp [hlt]
        · simp [hlt, node_of_le_size (Nat.le_of_not_lt hlt)]
      · have hn' : ¬ n = i := fun he => hn he.symm
        simp [hn, hn']
    rw [hi]
    by_cases hn : n ∈ is <;> simp [hn]

theorem size_nodes_foldl_vacate (ids : List NodeId) :
    (ids.foldl vacate t).nodes.size = t.nodes.size := by
  induction ids generalizing t with
  | nil => rfl
  | cons i is ih =>
    rw [List.foldl_cons, ih]
    exact size_nodes_modify t i _

theorem free_foldl_vacate (ids : List NodeId) :
    (ids.foldl vacate t).free = ids.reverse ++ t.free := by
  induction ids generalizing t with
  | nil => rfl
  | cons i is ih =>
    rw [List.foldl_cons, ih, List.reverse_cons, List.append_assoc]
    rfl

/-- Giving up a set of live nodes that is closed under links keeps a tree well formed. -/
theorem WellFormed.foldl_vacate (h : WellFormed t) {ids : List NodeId} (hnd : ids.Nodup)
    (hlive : ∀ i ∈ ids, t.Live i)
    (hclosed : ∀ c q, t.parent? c = some q → (c ∈ ids ↔ q ∈ ids)) :
    WellFormed (ids.foldl vacate t) := by
  have hchild : ∀ q, (ids.foldl vacate t).children q = if q ∈ ids then [] else t.children q := by
    intro q
    unfold children
    rw [node_foldl_vacate]
    split <;> rfl
  have hpar : ∀ c, (ids.foldl vacate t).parent? c = if c ∈ ids then none else t.parent? c := by
    intro c
    unfold parent?
    rw [node_foldl_vacate]
    split <;> rfl
  have hl : ∀ x, (ids.foldl vacate t).Live x ↔ t.Live x ∧ x ∉ ids := by
    intro x
    unfold Live
    rw [size_nodes_foldl_vacate, free_foldl_vacate]
    simp only [List.mem_append, List.mem_reverse, not_or]
    exact ⟨fun hx => ⟨⟨hx.1, hx.2.2⟩, hx.2.1⟩, fun hx => ⟨hx.1.1, hx.2, hx.1.2⟩⟩
  refine .of_links ?_ ?_ ?_ ?_ ?_ ?_
  · intro c q
    rw [hchild, hpar]
    by_cases hq : q ∈ ids
    · rw [if_pos hq]
      by_cases hc : c ∈ ids
      · simp [hc]
      · rw [if_neg hc]
        refine ⟨fun hm => (nomatch hm), fun hp => ?_⟩
        exact absurd ((hclosed c q hp).mpr hq) hc
    · rw [if_neg hq, h.mem_children]
      by_cases hc : c ∈ ids
      · rw [if_pos hc]
        refine ⟨fun hp => ?_, fun hn => (nomatch hn)⟩
        exact absurd ((hclosed c q hp).mp hc) hq
      · rw [if_neg hc]
  · intro c q hq
    rw [hpar] at hq
    split at hq
    · cases hq
    · rename_i hc
      rw [hl, hl]
      obtain ⟨hlc, hlq⟩ := h.live_of_parent hq
      exact ⟨⟨hlc, hc⟩, hlq, fun hqi => hc ((hclosed c q hq).mpr hqi)⟩
  · intro q
    rw [hchild]
    split
    · exact List.nodup_nil
    · exact h.children_nodup q
  · obtain ⟨rank, hrank⟩ := h.exists_rank
    refine ⟨rank, fun c q hq => ?_⟩
    rw [hpar] at hq
    split at hq
    · cases hq
    · exact hrank c q hq
  · rw [free_foldl_vacate, List.nodup_append]
    refine ⟨(List.reverse_perm ids).nodup_iff.mpr hnd, h.nodup_free, ?_⟩
    rintro a ha b hb rfl
    exact (hlive a (List.mem_reverse.mp ha)).2 hb
  · intro i hi
    rw [free_foldl_vacate, List.mem_append, List.mem_reverse] at hi
    rw [size_nodes_foldl_vacate]
    rcases hi with hi | hi
    · exact (hlive i hi).1
    · exact h.free_lt i hi

/-- `after` is the tree `t` without `id` and what stands below it. -/
structure Released (t : Tree) (id : NodeId) (after : Tree) : Prop where
  wellFormed : WellFormed after
  live : ∀ n, after.Live n ↔ t.Live n ∧ ¬ Under t id n
  content : ∀ n, ¬ Under t id n → after.content n = t.content n
  parent? : ∀ n, ¬ Under t id n → after.parent? n = t.parent? n
  children : ∀ n, ¬ Under t id n → after.children n = (t.children n).erase id

/-- Taking a node out leaves what stands below it. -/
theorem WellFormed.under_detach_self (h : WellFormed t) : Under (t.detach id) id n ↔ Under t id n := by
  constructor
  · intro hu
    induction hu with
    | self => exact .self
    | child hp _ ih =>
      rw [h.parent?_detach] at hp
      split at hp
      · cases hp
      · exact .child hp ih
  · intro hu
    induction hu with
    | self => exact .self
    | @child p c hp _ ih =>
      by_cases hc : c = id
      · rw [hc]; exact .self
      · refine .child ?_ ih
        rw [h.parent?_detach, if_neg hc]
        exact hp

theorem WellFormed.released (h : WellFormed t) (hid : t.Live id) : Released t id (t.release id) := by
  have hd := h.detach id
  let ids := (t.detach id).descendants id ++ [id]
  have hmem : ∀ n, n ∈ ids ↔ Under t id n := by
    intro n
    rw [List.mem_append, hd.mem_descendants, List.mem_singleton, h.under_detach_self]
    by_cases hn : n = id
    · subst hn
      exact ⟨fun _ => .self, fun _ => .inr rfl⟩
    · simp [hn]
  have hroot : (t.detach id).parent? id = none := by rw [h.parent?_detach, if_pos rfl]
  have hl : ∀ i ∈ ids, (t.detach id).Live i := by
    intro i hi
    exact live_detach.mpr (h.live_of_under hid ((hmem i).mp hi))
  have hwf : WellFormed (t.release id) := by
    refine hd.foldl_vacate ?_ hl ?_
    · rw [List.nodup_append]
      refine ⟨hd.nodup_descendants id, by simp, ?_⟩
      intro a ha b hb
      rw [List.mem_singleton.mp hb]
      exact (hd.mem_descendants.mp ha).2
    · intro c q hq
      rw [hmem, hmem, ← h.under_detach_self, ← h.under_detach_self]
      constructor
      · intro hu
        refine hu.of_parent hq ?_
        rintro rfl
        rw [hroot] at hq
        cases hq
      · exact fun hu => .child hq hu
  have hnode : ∀ n, ¬ Under t id n → (t.release id).node n = (t.detach id).node n := by
    intro n hn
    show (ids.foldl vacate (t.detach id)).node n = _
    rw [node_foldl_vacate, if_neg fun hm => hn ((hmem n).mp hm)]
  refine ⟨hwf, ?_, ?_, ?_, ?_⟩
  · intro n
    show (ids.foldl vacate (t.detach id)).Live n ↔ _
    unfold Live
    rw [size_nodes_foldl_vacate, free_foldl_vacate, size_nodes_detach, free_detach]
    simp only [List.mem_append, List.mem_reverse, not_or, hmem]
    exact ⟨fun hx => ⟨⟨hx.1, hx.2.2⟩, hx.2.1⟩, fun hx => ⟨hx.1.1, hx.2, hx.1.2⟩⟩
  · intro n hn
    unfold content
    rw [hnode n hn]
    exact content_detach
  · intro n hn
    unfold parent?
    rw [hnode n hn]
    refine h.parent?_detach.trans (if_neg ?_)
    rintro rfl
    exact hn .self
  · intro n hn
    unfold children
    rw [hnode n hn]
    exact h.children_detach

/-- Giving a node up does not change what stands above the others. -/
theorem Released.under {after : Tree} {a : NodeId} (h : Released t id after) (hn : ¬ Under t id n) :
    Under after a n ↔ Under t a n :=
  under_congr fun m hm => h.parent? m fun hu => hn (hu.trans hm)

/-- `after` is the tree `t` without the nodes `cs` and what stands below them. -/
structure Dropped (t : Tree) (cs : List NodeId) (after : Tree) : Prop where
  wellFormed : WellFormed after
  live : ∀ n, after.Live n ↔ t.Live n ∧ ∀ c ∈ cs, ¬ Under t c n
  content : ∀ n, (∀ c ∈ cs, ¬ Under t c n) → after.content n = t.content n
  parent? : ∀ n, (∀ c ∈ cs, ¬ Under t c n) → after.parent? n = t.parent? n
  children : ∀ n, (∀ c ∈ cs, ¬ Under t c n) →
    after.children n = (t.children n).filter fun c => !cs.contains c

/-- Some children of one node are given up, one after another. -/
theorem WellFormed.dropped (h : WellFormed t) {cs : List NodeId} (hnd : cs.Nodup)
    (hcs : ∀ c ∈ cs, t.parent? c = some p) : Dropped t cs (cs.foldl Tree.release t) := by
  induction cs generalizing t with
  | nil =>
    refine ⟨h, fun n => ?_, fun _ _ => rfl, fun _ _ => rfl, fun n _ => ?_⟩
    · simp
    · exact (List.filter_eq_self.mpr fun _ _ => rfl).symm
  | cons c cs ih =>
    obtain ⟨hc, hnd⟩ := List.nodup_cons.mp hnd
    have hpc := hcs c List.mem_cons_self
    have hr := h.released (h.live_of_parent hpc).1
    have hcs' : ∀ c' ∈ cs, t.parent? c' = some p := fun c' hc' => hcs c' (List.mem_cons_of_mem _ hc')
    -- the others are siblings, so they stand where they stood
    have hnot : ∀ c' ∈ cs, ¬ Under t c c' := by
      intro c' hc' hu
      exact hc (h.siblings_disjoint hpc (hcs' c' hc') hu .self ▸ hc')
    have hd := ih hr.wellFormed hnd fun c' hc' => (hr.parent? c' (hnot c' hc')).trans (hcs' c' hc')
    have hall : ∀ n, (∀ c' ∈ c :: cs, ¬ Under t c' n) ↔
        ¬ Under t c n ∧ ∀ c' ∈ cs, ¬ Under (t.release c) c' n := by
      intro n
      rw [List.forall_mem_cons]
      refine and_congr_right fun hn => ?_
      exact forall_congr' fun c' => forall_congr' fun _ => not_congr (hr.under hn).symm
    refine ⟨hd.wellFormed, fun n => ?_, fun n hn => ?_, fun n hn => ?_, fun n hn => ?_⟩
    · rw [hall, List.foldl_cons, hd.live, hr.live, and_assoc]
    · obtain ⟨h₁, h₂⟩ := (hall n).mp hn
      exact (hd.content n h₂).trans (hr.content n h₁)
    · obtain ⟨h₁, h₂⟩ := (hall n).mp hn
      exact (hd.parent? n h₂).trans (hr.parent? n h₁)
    · obtain ⟨h₁, h₂⟩ := (hall n).mp hn
      rw [List.foldl_cons, hd.children n h₂, hr.children n h₁,
        (h.children_nodup n).erase_eq_filter, List.filter_filter]
      refine List.filter_congr fun x _ => ?_
      rw [List.contains_cons, Bool.not_or, Bool.and_comm]
      rfl

/-- A node that stays, and loses no child, does not change. -/
theorem Dropped.node_of_ne {cs : List NodeId} {after : Tree} (hd : Dropped t cs after)
    (h : WellFormed t) (hcs : ∀ c ∈ cs, t.parent? c = some p) (hn : after.Live n) (hne : n ≠ p) :
    after.node n = t.node n := by
  have hu := ((hd.live n).mp hn).2
  refine node_eq_of_views (hd.content n hu) ?_ (hd.parent? n hu)
  rw [hd.children n hu]
  refine List.filter_eq_self.mpr fun c hm => ?_
  rw [Bool.not_eq_true', ← Bool.not_eq_true, List.contains_iff_mem]
  intro hc
  have hp := h.mem_children.mp hm
  rw [hcs c hc] at hp
  exact hne (Option.some.inj hp).symm

end Stencil.Tree
