/-
  What a change leaves alone.

  Two notions, for the two ways in which a run touches its tree.

    * Documents are edited, spliced and given up as wholes.  A set of nodes that is closed under links
      (`Closed`) is a union of whole documents; a change to nodes outside it leaves every node of it as
      it is (`Keeps`).  Cutting links keeps such a union one, wherever it is done (`Loosened`).
    * Fields write values into the elements that hold them.  A walk stands on a *trunk* of a document:
      nodes that are no part of a field, with all nodes above them.  Writing a field changes no `shape`
      there: neither links nor names nor what a loop keeps with its node (`KeepsShape`).
-/
import Stencil.Proofs.Tree.Copies

set_option autoImplicit false

namespace Stencil.Tree

variable {t t' t₁ t₂ : Tree} {P Q S : NodeId → Prop} {a id n p root : NodeId}

/-! ## Chains of parents -/

/-- A set of live nodes that is closed towards the roots. -/
structure Upward (t : Tree) (S : NodeId → Prop) : Prop where
  live : ∀ n, S n → t.Live n
  up : ∀ n p, S n → t.parent? n = some p → S p

/-- Each node of a set lives in `t'` and has the parent that it has in `t`. -/
def KeepsParents (S : NodeId → Prop) (t t' : Tree) : Prop :=
  ∀ n, S n → t'.Live n ∧ t'.parent? n = t.parent? n

theorem KeepsParents.trans (h : KeepsParents S t t₁) (h' : KeepsParents S t₁ t₂) :
    KeepsParents S t t₂ :=
  fun n hn => ⟨(h' n hn).1, (h' n hn).2.trans (h n hn).2⟩

theorem KeepsParents.mono (h : KeepsParents S t t') (hsub : ∀ n, Q n → S n) : KeepsParents Q t t' :=
  fun n hn => h n (hsub n hn)

theorem KeepsParents.upward (h : KeepsParents S t t') (hs : Upward t S) : Upward t' S where
  live := fun n hn => (h n hn).1
  up := fun n p hn hp => hs.up n p hn ((h n hn).2.symm.trans hp)

namespace Upward

theorem of_under (hs : Upward t S) (hu : Under t a n) (hn : S n) : S a := by
  induction hu with
  | self => exact hn
  | child hp _ ih => exact ih (hs.up _ _ hn hp)

theorem not_under (hs : Upward t S) (hid : ¬ S id) (hn : S n) : ¬ Under t id n :=
  fun hu => hid (hs.of_under hu hn)

/-- Where the parents are kept, so is what stands above. -/
theorem under (hs : Upward t S) (h : KeepsParents S t t') (hn : S n) : Under t' a n ↔ Under t a n :=
  under_congr fun m hm => (h m (hs.of_under hm hn)).2

theorem keepsParents_modify (hs : Upward t S) {f : Node → Node} (hf : ∀ x, (f x).parent = x.parent) :
    KeepsParents S t (t.modify id f) :=
  fun n hn => ⟨(live_modify t id n f).mpr (hs.live n hn), parent?_modify hf id n⟩

theorem keepsParents_release (hs : Upward t S) (hwf : WellFormed t) (hl : t.Live id) (hid : ¬ S id) :
    KeepsParents S t (t.release id) := by
  have hr := hwf.released hl
  intro n hn
  have hu := hs.not_under hid hn
  exact ⟨(hr.live n).mpr ⟨hs.live n hn, hu⟩, hr.parent? n hu⟩

theorem keepsParents_dropped {cs : List NodeId} (hs : Upward t S) (hd : Dropped t cs t')
    (hcs : ∀ c ∈ cs, ¬ S c) : KeepsParents S t t' := by
  intro n hn
  have hu : ∀ c ∈ cs, ¬ Under t c n := fun c hc => hs.not_under (hcs c hc) hn
  exact ⟨(hd.live n).mpr ⟨hs.live n hn, hu⟩, hd.parent? n hu⟩

theorem keepsParents_appendChild (hs : Upward t S) (hwf : WellFormed t) (hl : t.Live id)
    (hid : ¬ S id) : KeepsParents S t (t.appendChild p id) := by
  intro n hn
  have hne : n ≠ id := fun he => hid (he ▸ hn)
  rw [hwf.parent?_appendChild hl, if_neg hne, live_appendChild]
  exact ⟨hs.live n hn, rfl⟩

end Upward

/-! ## Whole documents -/

/-- A set of live nodes that is closed under links. -/
structure Closed (t : Tree) (P : NodeId → Prop) : Prop extends Upward t P where
  down : ∀ p c, P p → t.parent? c = some p → P c

theorem closed_none : Closed t fun _ => False :=
  ⟨⟨fun _ hn => hn.elim, fun _ _ hn => hn.elim⟩, fun _ _ hn => hn.elim⟩

/-- All nodes that live. -/
theorem closed_live (h : WellFormed t) : Closed t t.Live where
  live := fun _ hn => hn
  up := fun _ _ _ hp => (h.live_of_parent hp).2
  down := fun _ _ _ hp => (h.live_of_parent hp).1

/-- Each node of a set is in `t'` what it is in `t`. -/
def Keeps (P : NodeId → Prop) (t t' : Tree) : Prop := ∀ n, P n → t'.Live n ∧ t'.node n = t.node n

/-- A document is a closed set. -/
theorem closed_document (h : WellFormed t) (hl : t.Live root) (hr : t.parent? root = none) :
    Closed t (Under t root) where
  live := fun _ hn => h.live_of_under hl hn
  up := by
    intro n p hn hp
    refine hn.of_parent hp ?_
    rintro rfl
    rw [hr] at hp
    cases hp
  down := fun _ _ hp hc => .child hc hp

/-- The root of a document stands in no other one. -/
theorem not_under_root {d : NodeId} (hd : t.parent? d = none) (hne : d ≠ root) : ¬ Under t root d :=
  fun hu => hne (hu.eq_of_root hd)

theorem Keeps.refl (hc : Closed t P) : Keeps P t t := fun n hn => ⟨hc.live n hn, rfl⟩

theorem Keeps.trans (h : Keeps P t t₁) (h' : Keeps P t₁ t₂) : Keeps P t t₂ :=
  fun n hn => ⟨(h' n hn).1, (h' n hn).2.trans (h n hn).2⟩

theorem Keeps.parent? (h : Keeps P t t') (hn : P n) : t'.parent? n = t.parent? n := by
  unfold Tree.parent?
  rw [(h n hn).2]

theorem Keeps.name (h : Keeps P t t') (hn : P n) : t'.name n = t.name n := by
  unfold Tree.name
  rw [(h n hn).2]

theorem Keeps.children (h : Keeps P t t') (hn : P n) : t'.children n = t.children n := by
  unfold Tree.children
  rw [(h n hn).2]

/-- What is kept stays closed. -/
theorem Keeps.closed (hc : Closed t P) (hwf : WellFormed t) (hwf' : WellFormed t')
    (h : Keeps P t t') : Closed t' P where
  live := fun n hn => (h n hn).1
  up := fun n p hn hp => hc.up n p hn ((h.parent? hn).symm.trans hp)
  down := by
    intro p c hp hcp
    rw [← hwf'.mem_children, h.children hp, hwf.mem_children] at hcp
    exact hc.down p c hp hcp

theorem Closed.keeps_modify (hc : Closed t P) (hid : ¬ P id) (f : Node → Node) :
    Keeps P t (t.modify id f) := by
  intro n hn
  refine ⟨(live_modify t id n f).mpr (hc.live n hn), node_modify_of_ne ?_⟩
  rintro rfl
  exact hid hn

theorem Closed.keeps_setValue (hc : Closed t P) (hwf : WellFormed t) (hid : ¬ P id) (text : String) :
    Keeps P t (t.setValue id text) := by
  intro n hn
  refine ⟨(live_setValue text).mpr (hc.live n hn), ?_⟩
  rw [hwf.node_setValue, if_neg fun hp => hid (hc.up n id hn hp), if_neg]
  rintro ⟨rfl, _⟩
  exact hid hn

theorem Closed.keeps_detach (hc : Closed t P) (hwf : WellFormed t) (hid : ¬ P id) :
    Keeps P t (t.detach id) := by
  intro n hn
  refine ⟨live_detach.mpr (hc.live n hn), hwf.node_detach_of_ne ?_ ?_⟩
  · rintro rfl
    exact hid hn
  · exact fun hp => hid (hc.down n id hn hp)

theorem Closed.keeps_appendChild (hc : Closed t P) (hwf : WellFormed t) (hid : ¬ P id) (hp : ¬ P p) :
    Keeps P t (t.appendChild p id) := by
  have hd := hc.keeps_detach hwf hid
  intro n hn
  have hnid : n ≠ id := fun he => hid (he ▸ hn)
  have hnp : n ≠ p := fun he => hp (he ▸ hn)
  rw [appendChild_eq_attach]
  exact ⟨live_attach.mpr (hd n hn).1, (node_attach_of_ne hnid hnp).trans (hd n hn).2⟩

theorem Closed.keeps_release (hc : Closed t P) (hwf : WellFormed t) (hl : t.Live id)
    (hid : ¬ P id) : Keeps P t (t.release id) := by
  have hr := hwf.released hl
  intro n hn
  have hu := hc.not_under hid hn
  refine ⟨(hr.live n).mpr ⟨hc.live n hn, hu⟩, ?_⟩
  refine node_eq_of_views (hr.content n hu) ?_ (hr.parent? n hu)
  rw [hr.children n hu]
  refine List.erase_of_not_mem fun hm => hid (hc.down n id hn (hwf.mem_children.mp hm))

theorem Closed.keeps_dropped {cs : List NodeId} (hc : Closed t P) (hwf : WellFormed t)
    (hd : Dropped t cs t') (hcs : ∀ c ∈ cs, ¬ P c) : Keeps P t t' := by
  intro n hn
  have hu : ∀ c ∈ cs, ¬ Under t c n := fun c hm => hc.not_under (hcs c hm) hn
  refine ⟨(hd.live n).mpr ⟨hc.live n hn, hu⟩, ?_⟩
  refine node_eq_of_views (hd.content n hu) ?_ (hd.parent? n hu)
  rw [hd.children n hu]
  refine List.filter_eq_self.mpr fun c hm => ?_
  rw [Bool.not_eq_true', ← Bool.not_eq_true, List.contains_iff_mem]
  exact fun hin => hcs c hin (hc.down n c hn (hwf.mem_children.mp hm))

/-- A new node changes nothing in a closed set that its parent is no part of. -/
theorem Added.keeps {cs : List NodeId} {node : Node} (h : Added t p cs node id t') (hc : Closed t P)
    (hP : ¬ P p) : Keeps P t t' := by
  intro n hn
  refine ⟨h.live n (hc.live n hn), h.node n (hc.live n hn) ?_⟩
  rintro rfl
  exact hP hn

theorem Grafted.keeps {e : Element} (hg : Grafted t e root t') (hc : Closed t P) : Keeps P t t' :=
  fun n hn => ⟨hg.live n (hc.live n hn), hg.node n (hc.live n hn)⟩

/-- A copy that is put into the tree is a document of its own. -/
theorem Grafted.not_mem {e : Element} (hg : Grafted t e root t') (hc : Closed t P) : ¬ P root :=
  fun hr => hg.fresh (hc.live root hr)

/-! ## Links that are cut -/

/-- `t'` is `t` after links have been cut: the same nodes live, each with the parent that it had or with none. -/
structure Loosened (t t' : Tree) : Prop where
  live : ∀ n, t'.Live n ↔ t.Live n
  parent? : ∀ n p, t'.parent? n = some p → t.parent? n = some p

namespace Loosened

theorem refl (t : Tree) : Loosened t t := ⟨fun _ => Iff.rfl, fun _ _ hp => hp⟩

theorem trans (h : Loosened t t₁) (h' : Loosened t₁ t₂) : Loosened t t₂ where
  live := fun n => (h'.live n).trans (h.live n)
  parent? := fun n p hp => h.parent? n p (h'.parent? n p hp)

theorem modify {f : Node → Node} (hf : ∀ x, (f x).parent = x.parent) : Loosened t (t.modify id f) where
  live := fun n => live_modify t id n f
  parent? := fun n _ hp => (parent?_modify hf id n).symm.trans hp

/-- A value cuts off the children of the node that gets it. -/
theorem setValue (text : String) : Loosened t (t.setValue id text) := by
  refine ⟨fun n => live_setValue text, fun n p hp => ?_⟩
  have hcleared : Loosened t ((t.modifyChildren id fun _ => []).setText id text) :=
    (modify (f := fun x => { x with children := [] }) fun _ => rfl).trans
      (modify (f := fun x => { x with text }) fun _ => rfl)
  refine hcleared.parent? n p ?_
  rw [Tree.parent?, Tree.setValue, node_foldl_clear] at hp
  split at hp
  · cases hp
  · exact hp

/-- Whole documents stay whole documents, though they may fall apart. -/
theorem closed (h : Loosened t t') (hc : Closed t P) : Closed t' P where
  live := fun n hn => (h.live n).mpr (hc.live n hn)
  up := fun n p hn hp => hc.up n p hn (h.parent? n p hp)
  down := fun p c hp hcp => hc.down p c hp (h.parent? c p hcp)

end Loosened

/-! ## Trunks -/

/-- A node without what writing a field changes: its text and what was last written. -/
def shape (t : Tree) (n : NodeId) : Node :=
  { t.node n with
    text := ""
    computed := { t.computed n with result := none, resultBytes := none } }

/-- What fields are made of: the field, and the children whose text is its value. -/
def fieldTags : List String := ["item", "value", "default-value"]

/-- A set of live nodes, closed towards the roots, of which none but a root is part of a field. -/
structure Trunk (t : Tree) (Q : NodeId → Prop) : Prop extends Upward t Q where
  tag : ∀ n p, Q n → t.parent? n = some p → t.name n ∉ fieldTags

/-- Each node of a set has in `t'` the shape that it has in `t`. -/
def KeepsShape (Q : NodeId → Prop) (t t' : Tree) : Prop :=
  ∀ n, Q n → t'.Live n ∧ t'.shape n = t.shape n

theorem KeepsShape.refl (h : Trunk t Q) : KeepsShape Q t t := fun n hn => ⟨h.live n hn, rfl⟩

theorem KeepsShape.trans (h : KeepsShape Q t t₁) (h' : KeepsShape Q t₁ t₂) : KeepsShape Q t t₂ :=
  fun n hn => ⟨(h' n hn).1, (h' n hn).2.trans (h n hn).2⟩

theorem Keeps.keepsShape (h : Keeps P t t') (hsub : ∀ n, Q n → P n) : KeepsShape Q t t' := by
  intro n hn
  refine ⟨(h n (hsub n hn)).1, ?_⟩
  unfold shape computed
  rw [(h n (hsub n hn)).2]

namespace KeepsShape

theorem name (h : KeepsShape Q t t') (hn : Q n) : t'.name n = t.name n :=
  show (t'.shape n).name = (t.shape n).name by rw [(h n hn).2]

theorem attrs (h : KeepsShape Q t t') (hn : Q n) : (t'.node n).attrs = (t.node n).attrs :=
  show (t'.shape n).attrs = (t.shape n).attrs by rw [(h n hn).2]

theorem children (h : KeepsShape Q t t') (hn : Q n) : t'.children n = t.children n :=
  show (t'.shape n).children = (t.shape n).children by rw [(h n hn).2]

theorem parent? (h : KeepsShape Q t t') (hn : Q n) : t'.parent? n = t.parent? n :=
  show (t'.shape n).parent = (t.shape n).parent by rw [(h n hn).2]

theorem seq (h : KeepsShape Q t t') (hn : Q n) : (t'.computed n).seq = (t.computed n).seq :=
  show (t'.shape n).computed.seq = (t.shape n).computed.seq by rw [(h n hn).2]

theorem repeatId (h : KeepsShape Q t t') (hn : Q n) :
    (t'.computed n).repeatId = (t.computed n).repeatId :=
  show (t'.shape n).computed.repeatId = (t.shape n).computed.repeatId by rw [(h n hn).2]

theorem trunk (h : KeepsShape Q t t') (hq : Trunk t Q) : Trunk t' Q where
  live := fun n hn => (h n hn).1
  up := fun n p hn hp => hq.up n p hn ((h.parent? hn).symm.trans hp)
  tag := by
    intro n p hn hp
    rw [h.name hn]
    exact hq.tag n p hn ((h.parent? hn).symm.trans hp)

end KeepsShape

/-- The trunk of a document: the root, and each group or loop whose parent is on the trunk. -/
inductive Inner (t : Tree) (root : NodeId) : NodeId → Prop
  | root : Inner t root root
  | step {p n : NodeId} : Inner t root p → t.parent? n = some p →
      t.name n = "items" ∨ t.name n = "repeat" → Inner t root n

theorem Inner.under (h : Inner t root n) : Under t root n := by
  induction h with
  | root => exact .self
  | step _ hp _ ih => exact .child hp ih

/-- On the trunk, what is not the root is a group or a loop. -/
theorem Inner.name (h : Inner t root n) (hr : t.parent? root = none) (hp : t.parent? n = some p) :
    t.name n = "items" ∨ t.name n = "repeat" := by
  cases h with
  | root => rw [hr] at hp; cases hp
  | step _ _ ht => exact ht

theorem trunk_inner (h : WellFormed t) (hl : t.Live root) (hr : t.parent? root = none) :
    Trunk t (Inner t root) where
  live := fun _ hn => h.live_of_under hl hn.under
  up := by
    intro n p hn hp
    cases hn with
    | root => rw [hr] at hp; cases hp
    | step hq hpq _ =>
      rw [hpq] at hp
      cases hp
      exact hq
  tag := by
    intro n p hn hp
    rcases hn.name hr hp with ht | ht <;> rw [ht] <;> decide

/-- The trunk of a document that keeps its shapes is still on the trunk. -/
theorem Inner.of_keepsShape (h : KeepsShape (Inner t root) t t') (hn : Inner t root n) :
    Inner t' root n := by
  induction hn with
  | root => exact .root
  | @step p n hq hp ht ih =>
    have hin : Inner t root n := .step hq hp ht
    refine .step ih ((h.parent? hin).trans hp) ?_
    rw [h.name hin]
    exact ht

namespace Trunk

/-- A part of a field that has a parent is off every trunk. -/
theorem not_mem (hq : Trunk t Q) (hp : t.parent? n = some p) (ht : t.name n ∈ fieldTags) : ¬ Q n :=
  fun hn => hq.tag n p hn hp ht

theorem keepsShape_modify (hq : Trunk t Q) (f : Node → Node)
    (hf : ∀ x, { f x with text := "", computed := { (f x).computed with result := none, resultBytes := none } }
      = { x with text := "", computed := { x.computed with result := none, resultBytes := none } }) :
    KeepsShape Q t (t.modify id f) := by
  intro n hn
  refine ⟨(live_modify t id n f).mpr (hq.live n hn), ?_⟩
  unfold shape computed
  rw [node_modify]
  split
  · exact hf _
  · rfl

theorem keepsShape_setValue (hq : Trunk t Q) (hwf : WellFormed t) (hid : ¬ Q id) (text : String) :
    KeepsShape Q t (t.setValue id text) := by
  intro n hn
  refine ⟨(live_setValue text).mpr (hq.live n hn), ?_⟩
  have hnode : (t.setValue id text).node n = t.node n := by
    rw [hwf.node_setValue, if_neg fun hp => hid (hq.up n id hn hp), if_neg]
    rintro ⟨rfl, _⟩
    exact hid hn
  unfold shape computed
  rw [hnode]

end Trunk

/-- `t'` is `t` after values have been put into fields. -/
structure Refreshed (t t' : Tree) : Prop where
  wellFormed : WellFormed t'
  live : ∀ n, t.Live n → t'.Live n
  name : ∀ n, t.Live n → t'.name n = t.name n
  attrs : ∀ n, t.Live n → (t'.node n).attrs = (t.node n).attrs
  repeatId : ∀ n, t.Live n → (t'.computed n).repeatId = (t.computed n).repeatId
  shape : ∀ Q, Trunk t Q → KeepsShape Q t t'

namespace Refreshed

theorem refl (h : WellFormed t) : Refreshed t t :=
  ⟨h, fun _ hn => hn, fun _ _ => rfl, fun _ _ => rfl, fun _ _ => rfl, fun _ hq => .refl hq⟩

theorem trans (h : Refreshed t t₁) (h' : Refreshed t₁ t₂) : Refreshed t t₂ where
  wellFormed := h'.wellFormed
  live := fun n hn => h'.live n (h.live n hn)
  name := fun n hn => (h'.name n (h.live n hn)).trans (h.name n hn)
  attrs := fun n hn => (h'.attrs n (h.live n hn)).trans (h.attrs n hn)
  repeatId := fun n hn => (h'.repeatId n (h.live n hn)).trans (h.repeatId n hn)
  shape := fun Q hq => (h.shape Q hq).trans (h'.shape Q ((h.shape Q hq).trunk hq))

/-- What was last written is kept with a field. -/
theorem modifyComputed (h : WellFormed t) (id : NodeId) {f : Computed → Computed}
    (hf : ∀ c, { f c with result := none, resultBytes := none }
      = { c with result := none, resultBytes := none }) : Refreshed t (t.modifyComputed id f) where
  wellFormed := h.modifyComputed id f
  live := fun n hn => (live_modify t id n _).mpr hn
  name := by
    intro n _
    unfold Tree.name Tree.modifyComputed
    rw [node_modify]
    split <;> rfl
  attrs := by
    intro n _
    unfold Tree.modifyComputed
    rw [node_modify]
    split <;> rfl
  repeatId := by
    intro n _
    unfold Tree.computed Tree.modifyComputed
    rw [node_modify]
    split
    · have he := congrArg Computed.repeatId (hf (t.node n).computed)
      exact he
    · rfl
  shape := fun Q hq => hq.keepsShape_modify _ fun x => by rw [hf]

/-- A text becomes the content of a part of a field. -/
theorem setValue (h : WellFormed t) (hp : t.parent? id = some p) (ht : t.name id ∈ fieldTags)
    (text : String) : Refreshed t (t.setValue id text) where
  wellFormed := h.setValue id text
  live := fun _ hn => (live_setValue text).mpr hn
  name := by
    intro n _
    unfold Tree.name
    rw [h.node_setValue]
    split
    · rfl
    · split <;> rfl
  attrs := by
    intro n _
    rw [h.node_setValue]
    split
    · rfl
    · split <;> rfl
  repeatId := by
    intro n _
    unfold Tree.computed
    rw [h.node_setValue]
    split
    · rfl
    · split <;> rfl
  shape := fun _ hq => hq.keepsShape_setValue h (hq.not_mem hp ht) text

end Refreshed

end Stencil.Tree
