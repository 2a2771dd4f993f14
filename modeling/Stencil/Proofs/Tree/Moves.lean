/-
  Changes that move nodes about keep a tree well formed.

  A tree is seen through four views: which slots are free, and, for each node, its `content` (what it is
  apart from its links), its children and its parent.  Each change is described by what it does to
  them.  Two changes carry the whole: a node is taken out of its parent's children (`detach`), and a
  root is put among the children of a node that does not stand below it (`attach`).
-/
import Stencil.Proofs.Tree.Ancestry
import Stencil.Tree.Edit

set_option autoImplicit false

namespace Stencil.Tree

variable {t t' : Tree} {id n p : NodeId}

/-! ## Views -/

/-- What a node is, apart from its links. -/
def content (t : Tree) (n : NodeId) : Node := { t.node n with children := [], parent := none }

theorem name_eq_of_content (h : t'.content n = t.content n) : t'.name n = t.name n :=
  show (t'.content n).name = (t.content n).name by rw [h]

theorem attrs_eq_of_content (h : t'.content n = t.content n) :
    (t'.node n).attrs = (t.node n).attrs :=
  show (t'.content n).attrs = (t.content n).attrs by rw [h]

theorem computed_eq_of_content (h : t'.content n = t.content n) : t'.computed n = t.computed n :=
  show (t'.content n).computed = (t.content n).computed by rw [h]

/-- The views determine a node. -/
theorem node_eq_of_views (hc : t'.content n = t.content n) (hch : t'.children n = t.children n)
    (hp : t'.parent? n = t.parent? n) : t'.node n = t.node n := by
  have e : ∀ s : Tree, s.node n = { s.content n with children := s.children n, parent := s.parent? n } :=
    fun s => rfl
  rw [e t', e t, hc, hch, hp]

/-! ## Changes that leave the links alone -/

/-- Whether a tree is well formed shows in its links and its free slots. -/
theorem WellFormed.of_same_links (h : WellFormed t) (hs : t'.nodes.size = t.nodes.size)
    (hf : t'.free = t.free) (hc : ∀ n, t'.children n = t.children n)
    (hp : ∀ n, t'.parent? n = t.parent? n) : WellFormed t' := by
  have hl : ∀ n, t'.Live n ↔ t.Live n := by
    intro n
    unfold Live
    rw [hs, hf]
  refine .of_links ?_ ?_ ?_ ?_ ?_ ?_
  · intro c q
    rw [hc, hp]
    exact h.mem_children
  · intro c q hq
    rw [hp] at hq
    rw [hl, hl]
    exact h.live_of_parent hq
  · intro q
    rw [hc]
    exact h.children_nodup q
  · obtain ⟨rank, hrank⟩ := h.exists_rank
    refine ⟨rank, fun c q hq => ?_⟩
    rw [hp] at hq
    exact hrank c q hq
  · rw [hf]; exact h.nodup_free
  · rw [hf, hs]; exact h.free_lt

theorem children_modify {f : Node → Node} (hf : ∀ x, (f x).children = x.children) (id n : NodeId) :
    (t.modify id f).children n = t.children n := by
  unfold children
  rw [node_modify]
  split
  · exact hf _
  · rfl

theorem parent?_modify {f : Node → Node} (hf : ∀ x, (f x).parent = x.parent) (id n : NodeId) :
    (t.modify id f).parent? n = t.parent? n := by
  unfold parent?
  rw [node_modify]
  split
  · exact hf _
  · rfl

/-- A change of contents keeps a tree well formed. -/
theorem WellFormed.modify (h : WellFormed t) {f : Node → Node}
    (hc : ∀ x, (f x).children = x.children) (hp : ∀ x, (f x).parent = x.parent) (id : NodeId) :
    WellFormed (t.modify id f) :=
  h.of_same_links (size_nodes_modify t id f) rfl (children_modify hc id) (parent?_modify hp id)

theorem node_modify_of_ne {f : Node → Node} (hne : id ≠ n) : (t.modify id f).node n = t.node n := by
  rw [node_modify, if_neg fun hand => hne hand.1]

theorem WellFormed.setText (h : WellFormed t) (id : NodeId) (text : String) :
    WellFormed (t.setText id text) :=
  h.modify (by intro; rfl) (by intro; rfl) id

theorem WellFormed.setAttr (h : WellFormed t) (id : NodeId) (name value : String) :
    WellFormed (t.setAttr id name value) :=
  h.modify (by intro; rfl) (by intro; rfl) id

theorem WellFormed.retainAttrs (h : WellFormed t) (id : NodeId) (keep : List String) :
    WellFormed (t.retainAttrs id keep) :=
  h.modify (by intro; rfl) (by intro; rfl) id

theorem WellFormed.rename (h : WellFormed t) (id : NodeId) (name : String) :
    WellFormed (t.rename id name) :=
  h.modify (by intro; rfl) (by intro; rfl) id

theorem parent?_modifyComputed (f : Computed → Computed) :
    (t.modifyComputed id f).parent? n = t.parent? n :=
  parent?_modify (f := fun x => { x with computed := f x.computed }) (fun _ => rfl) id n

theorem children_modifyComputed (f : Computed → Computed) :
    (t.modifyComputed id f).children n = t.children n :=
  children_modify (f := fun x => { x with computed := f x.computed }) (fun _ => rfl) id n

theorem WellFormed.modifyComputed (h : WellFormed t) (id : NodeId) (f : Computed → Computed) :
    WellFormed (t.modifyComputed id f) :=
  h.modify (by intro; rfl) (by intro; rfl) id

/-! ## Taking a node out -/

theorem detach_of_root (hp : t.parent? id = none) : t.detach id = t := by
  unfold detach
  rw [hp]

@[simp] theorem size_nodes_detach : (t.detach id).nodes.size = t.nodes.size := by
  unfold detach
  split
  · exact (size_nodes_modify _ _ _).trans (size_nodes_modify _ _ _)
  · rfl

@[simp] theorem free_detach : (t.detach id).free = t.free := by
  unfold detach
  split <;> rfl

@[simp] theorem live_detach : (t.detach id).Live n ↔ t.Live n := by
  unfold Live
  rw [size_nodes_detach, free_detach]

theorem content_detach : (t.detach id).content n = t.content n := by
  unfold detach
  split
  · unfold content setParent modifyChildren
    simp only [node_modify]
    split <;> split <;> rfl
  · rfl

theorem WellFormed.parent?_detach (h : WellFormed t) :
    (t.detach id).parent? n = if n = id then none else t.parent? n := by
  cases hp : t.parent? id with
  | none =>
    rw [detach_of_root hp]
    split
    · rename_i hn; rw [hn, hp]
    · rfl
  | some p =>
    unfold detach parent? setParent modifyChildren
    rw [show (t.node id).parent = some p from hp]
    have hlt : id < t.nodes.size := (h.live_of_parent hp).1.1
    simp only [node_modify, size_nodes_modify]
    by_cases hn : n = id
    · subst hn; simp [hlt]
    · have hn' : ¬ id = n := fun he => hn he.symm
      simp only [hn, hn', false_and, if_false]
      split <;> rfl

theorem WellFormed.children_detach (h : WellFormed t) :
    (t.detach id).children n = (t.children n).erase id := by
  have hne : t.parent? id ≠ some n → (t.children n).erase id = t.children n := by
    intro hne
    exact List.erase_of_not_mem fun hm => hne (h.mem_children.mp hm)
  cases hp : t.parent? id with
  | none => rw [detach_of_root hp, hne (by rw [hp]; simp)]
  | some p =>
    have hlt : p < t.nodes.size := (h.live_of_parent hp).2.1
    by_cases hn : n = p
    · subst hn
      unfold detach children setParent modifyChildren
      rw [show t.parent? id = some n from hp]
      simp only [node_modify, size_nodes_modify]
      simp only [hlt, and_self, if_true]
      split <;> rfl
    · rw [hne (by rw [hp]; simpa using fun he => hn he.symm)]
      unfold detach children setParent modifyChildren
      rw [show t.parent? id = some p from hp]
      simp only [node_modify, size_nodes_modify]
      have hn' : ¬ p = n := fun he => hn he.symm
      simp only [hn', false_and, if_false]
      split <;> rfl

/-- Only the node and its parent notice that it is taken out. -/
theorem WellFormed.node_detach_of_ne (h : WellFormed t) (hn : n ≠ id) (hp : t.parent? id ≠ some n) :
    (t.detach id).node n = t.node n := by
  refine node_eq_of_views content_detach ?_ ?_
  · rw [h.children_detach]
    exact List.erase_of_not_mem fun hm => hp (h.mem_children.mp hm)
  · rw [h.parent?_detach, if_neg hn]

theorem WellFormed.detach (h : WellFormed t) (id : NodeId) : WellFormed (t.detach id) := by
  obtain ⟨rank, hrank⟩ := h.exists_rank
  have hmem : ∀ {c q}, c ∈ (t.detach id).children q ↔ (t.detach id).parent? c = some q := by
    intro c q
    rw [h.children_detach, h.parent?_detach, (h.children_nodup q).mem_erase_iff, h.mem_children]
    by_cases hc : c = id
    · simp [hc]
    · simp [hc]
  refine .of_links hmem ?_ ?_ ⟨rank, ?_⟩ ?_ ?_
  · intro c q hq
    rw [h.parent?_detach] at hq
    split at hq
    · cases hq
    · rw [live_detach, live_detach]
      exact h.live_of_parent hq
  · intro q
    rw [h.children_detach]
    exact (h.children_nodup q).erase id
  · intro c q hq
    rw [h.parent?_detach] at hq
    split at hq
    · cases hq
    · exact hrank c q hq
  · rw [free_detach]; exact h.nodup_free
  · rw [free_detach, size_nodes_detach]; exact h.free_lt

/-! ## Putting a root in -/

/-- Puts a node among the children of another, `place` saying how. -/
def attach (t : Tree) (p : NodeId) (place : List NodeId → List NodeId) (id : NodeId) : Tree :=
  (t.modifyChildren p place).setParent id (some p)

variable {place : List NodeId → List NodeId}

@[simp] theorem size_nodes_attach : (t.attach p place id).nodes.size = t.nodes.size :=
  (size_nodes_modify _ _ _).trans (size_nodes_modify _ _ _)

@[simp] theorem free_attach : (t.attach p place id).free = t.free := rfl

@[simp] theorem live_attach : (t.attach p place id).Live n ↔ t.Live n := by
  unfold Live
  rw [size_nodes_attach, free_attach]

theorem content_attach : (t.attach p place id).content n = t.content n := by
  unfold attach content setParent modifyChildren
  simp only [node_modify]
  split <;> split <;> rfl

theorem parent?_attach (hid : t.Live id) :
    (t.attach p place id).parent? n = if n = id then some p else t.parent? n := by
  unfold attach parent? setParent modifyChildren
  simp only [node_modify, size_nodes_modify]
  by_cases hn : n = id
  · subst hn; simp [hid.1]
  · have hn' : ¬ id = n := fun he => hn he.symm
    simp only [hn, hn', false_and, if_false]
    split <;> rfl

theorem children_attach (hp : t.Live p) :
    (t.attach p place id).children n = if n = p then place (t.children n) else t.children n := by
  unfold attach children setParent modifyChildren
  simp only [node_modify, size_nodes_modify]
  by_cases hn : n = p
  · subst hn
    simp only [hp.1, and_self, if_true]
    split <;> rfl
  · have hn' : ¬ p = n := fun he => hn he.symm
    simp only [hn, hn', false_and, if_false]
    split <;> rfl

/-- Only the node and its new parent notice that it is put in. -/
theorem node_attach_of_ne (hn : n ≠ id) (hp : n ≠ p) : (t.attach p place id).node n = t.node n := by
  unfold attach setParent modifyChildren
  rw [node_modify_of_ne fun he => hn he.symm, node_modify_of_ne fun he => hp he.symm]

theorem WellFormed.attach (h : WellFormed t) (hid : t.Live id) (hp : t.Live p)
    (hroot : t.parent? id = none) (hnot : ¬ Under t id p)
    (hplace : (place (t.children p)).Perm (id :: t.children p)) :
    WellFormed (t.attach p place id) := by
  obtain ⟨rank, hrank⟩ := h.exists_rank
  have hmem : ∀ {c q}, c ∈ (t.attach p place id).children q
      ↔ (t.attach p place id).parent? c = some q := by
    intro c q
    rw [children_attach hp, parent?_attach hid]
    by_cases hq : q = p
    · subst hq
      rw [if_pos rfl, hplace.mem_iff, List.mem_cons, h.mem_children]
      by_cases hc : c = id
      · simp [hc]
      · simp [hc]
    · rw [if_neg hq, h.mem_children]
      by_cases hc : c = id
      · subst hc
        rw [if_pos rfl, hroot]
        simp only [Option.some.injEq, reduceCtorEq, false_iff]
        exact fun he => hq he.symm
      · rw [if_neg hc]
  refine .of_links hmem ?_ ?_ ?_ ?_ ?_
  · intro c q hq
    rw [live_attach, live_attach]
    rw [parent?_attach hid] at hq
    split at hq
    · rename_i hc
      cases hq
      exact ⟨hc ▸ hid, hp⟩
    · exact h.live_of_parent hq
  · intro q
    rw [children_attach hp]
    split
    · rename_i hq
      rw [hq, hplace.nodup_iff, List.nodup_cons, h.mem_children, hroot]
      exact ⟨by simp, h.children_nodup p⟩
    · exact h.children_nodup q
  · -- what does not stand below `id` is ranked anew, above everything that does
    classical
    refine ⟨fun x => if Under t id x then rank x else rank x + rank id + 1, ?_⟩
    intro c q hq
    rw [parent?_attach hid] at hq
    show (if Under t id c then rank c else rank c + rank id + 1)
      < (if Under t id q then rank q else rank q + rank id + 1)
    split at hq
    · rename_i hc
      cases hq
      rw [hc, if_pos Under.self, if_neg hnot]
      omega
    · rename_i hc
      have hr := hrank c q hq
      by_cases hu : Under t id c
      · rw [if_pos hu, if_pos (hu.of_parent hq hc)]
        exact hr
      · rw [if_neg hu, if_neg fun huq => hu (.child hq huq)]
        omega
  · exact h.nodup_free
  · rw [size_nodes_attach]; exact h.free_lt

/-- `after` is the tree `t` in which the root `id` has become a child of `p`, whose children are
    `cs` then. -/
structure PutIn (t : Tree) (p : NodeId) (cs : List NodeId) (id : NodeId) (after : Tree) : Prop where
  wellFormed : WellFormed after
  live : ∀ n, after.Live n ↔ t.Live n
  content : ∀ n, after.content n = t.content n
  parent? : ∀ n, after.parent? n = if n = id then some p else t.parent? n
  children : ∀ n, after.children n = if n = p then cs else t.children n

theorem WellFormed.putIn_attach (h : WellFormed t) (hid : t.Live id) (hp : t.Live p)
    (hroot : t.parent? id = none) (hnot : ¬ Under t id p)
    (hplace : (place (t.children p)).Perm (id :: t.children p)) :
    PutIn t p (place (t.children p)) id (t.attach p place id) where
  wellFormed := h.attach hid hp hroot hnot hplace
  live := fun _ => live_attach
  content := fun _ => content_attach
  parent? := fun _ => parent?_attach hid
  children := by
    intro n
    rw [children_attach hp]
    split
    · rename_i hn; rw [hn]
    · rfl

/-- A root is put behind a child of `p`. -/
theorem WellFormed.insertAfter_root (h : WellFormed t) {anchor : NodeId} {before after : List NodeId}
    (hs : t.children p = before ++ anchor :: after) (hid : t.Live id) (hroot : t.parent? id = none)
    (hnot : ¬ Under t id p) :
    ∃ t', t.insertAfter anchor id = .ok t' ∧ PutIn t p (before ++ anchor :: id :: after) id t' := by
  have ha : t.parent? anchor = some p := h.mem_children.mp (by rw [hs]; simp)
  have hp : t.Live p := (h.live_of_parent ha).2
  let place : List NodeId → List NodeId := fun cs =>
    cs.take (before.length + 1) ++ id :: cs.drop (before.length + 1)
  have hplace : place (t.children p) = before ++ anchor :: id :: after := by
    show (t.children p).take _ ++ id :: (t.children p).drop _ = _
    rw [hs, List.take_length_add_append, List.drop_length_add_append]
    simp
  refine ⟨t.attach p place id, ?_, ?_⟩
  · unfold insertAfter
    rw [h.position?_of_split hs]
    dsimp only
    rw [detach_of_root hroot, if_pos (by rw [hs]; simp)]
    rfl
  · rw [← hplace]
    refine h.putIn_attach hid hp hroot hnot ?_
    rw [hplace, hs]
    have hperm : (before ++ anchor :: id :: after).Perm (before ++ id :: anchor :: after) :=
      (List.Perm.swap id anchor after).append_left before
    exact hperm.trans List.perm_middle

theorem WellFormed.putIn_prependChild (h : WellFormed t) (hid : t.Live id) (hp : t.Live p)
    (hroot : t.parent? id = none) (hnot : ¬ Under t id p) :
    PutIn t p (id :: t.children p) id (t.prependChild p id) := by
  have he : t.prependChild p id = t.attach p (fun cs => id :: cs) id := by
    unfold prependChild
    rw [detach_of_root hroot]
    rfl
  rw [he]
  exact h.putIn_attach hid hp hroot hnot (List.Perm.refl _)

theorem appendChild_eq_attach : t.appendChild p id = (t.detach id).attach p (fun cs => cs ++ [id]) id :=
  rfl

@[simp] theorem live_appendChild : (t.appendChild p id).Live n ↔ t.Live n := by
  rw [appendChild_eq_attach, live_attach, live_detach]

theorem WellFormed.parent?_appendChild (h : WellFormed t) (hid : t.Live id) :
    (t.appendChild p id).parent? n = if n = id then some p else t.parent? n := by
  rw [appendChild_eq_attach, parent?_attach (live_detach.mpr hid)]
  split
  · rfl
  · rename_i hn
    rw [h.parent?_detach, if_neg hn]

/-- A node is moved to another place, which does not stand below it. -/
theorem WellFormed.moved (h : WellFormed t) (hid : t.Live id) (hp : t.Live p) (hnot : ¬ Under t id p)
    (hplace : (place ((t.detach id).children p)).Perm (id :: (t.detach id).children p)) :
    WellFormed ((t.detach id).attach p place id) := by
  refine (h.detach id).attach (live_detach.mpr hid) (live_detach.mpr hp) ?_ ?_ hplace
  · rw [h.parent?_detach, if_pos rfl]
  · -- a chain of parents from `p` that reaches `id` does so before the link that was cut
    intro hu
    refine hnot ?_
    clear hp hnot hplace
    induction hu with
    | self => exact .self
    | child hq _ ih =>
      rw [h.parent?_detach] at hq
      split at hq
      · cases hq
      · exact .child hq ih

theorem WellFormed.appendChild (h : WellFormed t) (hid : t.Live id) (hp : t.Live p)
    (hnot : ¬ Under t id p) : WellFormed (t.appendChild p id) :=
  h.moved hid hp hnot (List.perm_append_singleton _ _)

theorem WellFormed.prependChild (h : WellFormed t) (hid : t.Live id) (hp : t.Live p)
    (hnot : ¬ Under t id p) : WellFormed (t.prependChild p id) :=
  h.moved hid hp hnot (List.Perm.refl _)

/-! ## Replacing the whole content -/

theorem node_foldl_clear (cs : List NodeId) :
    (cs.foldl (fun t c => t.setParent c none) t).node n
      = if n ∈ cs then { t.node n with parent := none } else t.node n := by
  induction cs generalizing t with
  | nil => simp
  | cons c cs ih =>
    rw [List.foldl_cons, ih]
    have hset : (t.setParent c none).node n
        = if n = c then { t.node n with parent := none } else t.node n := by
      unfold setParent
      rw [node_modify]
      by_cases hn : c = n
      · subst hn
        by_cases hlt : c < t.nodes.size
        · simp [hlt]
        · have hu := node_of_le_size (t := t) (Nat.le_of_not_lt hlt)
          simp [hlt, hu, Node.unused]
      · have hn' : ¬ n = c := fun he => hn he.symm
        simp [hn, hn']
    rw [hset]
    by_cases hn : n = c
    · simp [hn]
    · simp [hn]

theorem foldl_clear_frame (cs : List NodeId) :
    (cs.foldl (fun t c => t.setParent c none) t).nodes.size = t.nodes.size
      ∧ (cs.foldl (fun t c => t.setParent c none) t).free = t.free := by
  induction cs generalizing t with
  | nil => exact ⟨rfl, rfl⟩
  | cons c cs ih =>
    rw [List.foldl_cons]
    obtain ⟨hs, hf⟩ := ih (t := t.setParent c none)
    exact ⟨hs.trans (size_nodes_modify _ _ _), hf⟩

/-- What `setValue` does: the children become roots, and the node holds nothing but the text. -/
theorem WellFormed.node_setValue (h : WellFormed t) (text : String) :
    (t.setValue id text).node n
      = if t.parent? n = some id then { t.node n with parent := none }
        else if n = id ∧ n < t.nodes.size then { t.node n with children := [], text := text }
        else t.node n := by
  unfold setValue
  rw [node_foldl_clear]
  have hcleared : ((t.modifyChildren id fun _ => []).setText id text).node n
      = if n = id ∧ n < t.nodes.size then { t.node n with children := [], text := text }
        else t.node n := by
    unfold Tree.setText modifyChildren
    simp only [node_modify, size_nodes_modify]
    by_cases hn : id = n ∧ n < t.nodes.size
    · simp [hn]
    · have hn' : ¬ (n = id ∧ n < t.nodes.size) := fun he => hn ⟨he.1.symm, he.2⟩
      simp [hn, hn']
  by_cases hp : t.parent? n = some id
  · rw [if_pos (h.mem_children.mpr hp), if_pos hp, hcleared, if_neg]
    rintro ⟨rfl, _⟩
    exact h.parent_ne hp rfl
  · rw [if_neg fun hm => hp (h.mem_children.mp hm), if_neg hp, hcleared]

@[simp] theorem size_nodes_setValue (text : String) :
    (t.setValue id text).nodes.size = t.nodes.size := by
  unfold setValue
  rw [(foldl_clear_frame _).1]
  exact (size_nodes_modify _ _ _).trans (size_nodes_modify _ _ _)

@[simp] theorem free_setValue (text : String) : (t.setValue id text).free = t.free := by
  unfold setValue
  rw [(foldl_clear_frame _).2]
  rfl

@[simp] theorem live_setValue (text : String) : (t.setValue id text).Live n ↔ t.Live n := by
  unfold Live
  rw [size_nodes_setValue, free_setValue]

theorem WellFormed.parent?_setValue (h : WellFormed t) (text : String) :
    (t.setValue id text).parent? n = if t.parent? n = some id then none else t.parent? n := by
  unfold parent?
  rw [h.node_setValue]
  show Node.parent (if (t.node n).parent = some id then _ else _) = _
  split
  · rfl
  · split <;> rfl

theorem WellFormed.children_setValue (h : WellFormed t) (text : String) :
    (t.setValue id text).children n = if n = id then [] else t.children n := by
  unfold children
  rw [h.node_setValue]
  by_cases hn : n = id
  · subst hn
    rw [if_neg fun hp => h.parent_ne hp rfl, if_pos rfl]
    by_cases hlt : n < t.nodes.size
    · rw [if_pos ⟨rfl, hlt⟩]
    · rw [if_neg fun hand => hlt hand.2, node_of_le_size (Nat.le_of_not_lt hlt)]
      rfl
  · rw [if_neg hn]
    split
    · rfl
    · rw [if_neg fun hand => hn hand.1]

theorem WellFormed.setValue (h : WellFormed t) (id : NodeId) (text : String) :
    WellFormed (t.setValue id text) := by
  obtain ⟨rank, hrank⟩ := h.exists_rank
  have hpar : ∀ {c q}, (t.setValue id text).parent? c = some q ↔ t.parent? c = some q ∧ q ≠ id := by
    intro c q
    rw [h.parent?_setValue]
    by_cases hc : t.parent? c = some id
    · rw [if_pos hc, hc]
      refine ⟨fun hn => (nomatch hn), ?_⟩
      rintro ⟨hq, hne⟩
      exact absurd (Option.some.inj hq).symm hne
    · rw [if_neg hc]
      constructor
      · intro hq
        exact ⟨hq, fun he => hc (he ▸ hq)⟩
      · exact fun hq => hq.1
  have hmem : ∀ {c q}, c ∈ (t.setValue id text).children q
      ↔ (t.setValue id text).parent? c = some q := by
    intro c q
    rw [hpar, h.children_setValue]
    by_cases hq : q = id
    · simp [hq]
    · simp [hq, h.mem_children]
  refine .of_links hmem ?_ ?_ ⟨rank, ?_⟩ ?_ ?_
  · intro c q hq
    rw [live_setValue, live_setValue]
    exact h.live_of_parent (hpar.mp hq).1
  · intro q
    rw [h.children_setValue]
    split
    · exact List.nodup_nil
    · exact h.children_nodup q
  · intro c q hq
    exact hrank c q (hpar.mp hq).1
  · rw [free_setValue]; exact h.nodup_free
  · rw [free_setValue, size_nodes_setValue]; exact h.free_lt

end Stencil.Tree
