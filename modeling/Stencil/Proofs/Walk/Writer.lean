/-
  Fields, groups and the names of outputs.

  A field that is filled gets a `value` child; a group that is last among its siblings gets a node behind
  it that stands for nothing (`Marked`).  The body of a `writer` is walked in the same way, to make the
  name of an output, but that walk is off the trunk of every document: the walk itself does not notice
  (`quiet_render`).
-/
import Stencil.Proofs.Field
import Stencil.Proofs.Walk.Parts
import Stencil.Proofs.Walk.Standing

set_option autoImplicit false

namespace Stencil.Walk

open Stencil.Tree (Under Inner KeepsShape Trunk Refreshed Allocated Added PutIn fieldTags)

variable {t t' t₁ t₂ : Tree} {root node n p q : NodeId} {key : String} {scan scan' : List Position}
  {o : Options} {f : Frame} {w w' : Walk}

/-! ## Roots, and changes that no walk notices -/

/-- A node that lives and has no parent. -/
structure IsRoot (t : Tree) (r : NodeId) : Prop where
  live : t.Live r
  parent? : t.parent? r = none

/-- `t'` is `t` after changes off the trunks of the documents. -/
structure Quiet (t t' : Tree) : Prop where
  wellFormed : t'.WellFormed
  live : ∀ n, t.Live n → t'.Live n
  name : ∀ n, t.Live n → t'.name n = t.name n
  attrs : ∀ n, t.Live n → (t'.node n).attrs = (t.node n).attrs
  repeatId : ∀ n, t.Live n → (t'.computed n).repeatId = (t.computed n).repeatId
  shape : ∀ r, IsRoot t r → KeepsShape (Inner t r) t t'

theorem IsRoot.of_keepsShape {r : NodeId} (h : IsRoot t r) (hk : KeepsShape (Inner t r) t t') :
    IsRoot t' r :=
  ⟨(hk r .root).1, (hk.parent? .root).trans h.parent?⟩

namespace Quiet

theorem refl (h : t.WellFormed) : Quiet t t :=
  ⟨h, fun _ hn => hn, fun _ _ => rfl, fun _ _ => rfl, fun _ _ => rfl,
    fun _ hr => .refl (Tree.trunk_inner h hr.live hr.parent?)⟩

theorem isRoot {r : NodeId} (h : Quiet t t') (hr : IsRoot t r) : IsRoot t' r :=
  hr.of_keepsShape (h.shape r hr)

theorem trans (h : Quiet t t₁) (h' : Quiet t₁ t₂) : Quiet t t₂ where
  wellFormed := h'.wellFormed
  live := fun n hn => h'.live n (h.live n hn)
  name := fun n hn => (h'.name n (h.live n hn)).trans (h.name n hn)
  attrs := fun n hn => (h'.attrs n (h.live n hn)).trans (h.attrs n hn)
  repeatId := fun n hn => (h'.repeatId n (h.live n hn)).trans (h.repeatId n hn)
  shape := by
    intro r hr n hn
    have h₁ := h.shape r hr n hn
    have h₂ := h'.shape r (h.isRoot hr) n (hn.of_keepsShape (h.shape r hr))
    exact ⟨h₂.1, h₂.2.trans h₁.2⟩

end Quiet

theorem quiet_of_refreshed (hwf : t.WellFormed) (h : Refreshed t t') : Quiet t t' :=
  ⟨h.wellFormed, h.live, h.name, h.attrs, h.repeatId,
    fun _ hr => h.shape _ (Tree.trunk_inner hwf hr.live hr.parent?)⟩

/-! ## Filling a field -/

/-- A field that has no `value` child yet gets one, before its other children. -/
theorem added_putValue {item : NodeId} (value : String) (hwf : t.WellFormed) (hl : t.Live item)
    (hc : t.child? item "value" = none) :
    ∃ child, Added t item (child :: t.children item) { Node.unused with name := "value", text := value } child
      (putValue t item value) := by
  unfold putValue
  simp only [hc]
  have ha := hwf.allocated_addElement "value"
  generalize t.addElement none "value" = a at ha
  obtain ⟨child, t₁⟩ := a
  have ha' := ha.setText (fun h => (nomatch h)) value
  have hself : (t₁.setText child value).parent? child = none
      ∧ (t₁.setText child value).children child = [] := by
    unfold Tree.parent? Tree.children
    rw [ha'.node_self]
    exact ⟨rfl, rfl⟩
  have hput := ha'.wellFormed.putIn_prependChild ((ha'.live child).mpr (.inl rfl))
    ((ha'.live item).mpr (.inr hl)) hself.1 fun hu =>
      ha.fresh (ha'.wellFormed.eq_of_under_leaf hself.2 hu ▸ hl)
  have hchildren : (t₁.setText child value).children item = t.children item := by
    unfold Tree.children
    rw [ha'.node_of_ne item (fun he => ha.fresh (he ▸ hl)) fun h => (nomatch h)]
  rw [hchildren] at hput
  exact ⟨child, ha'.added rfl rfl hl hput⟩

theorem refreshed_putValue {item : NodeId} {value : String} (hwf : t.WellFormed)
    (hp : t.parent? item = some p) (hname : t.name item ∈ fieldTags) :
    Refreshed t (putValue t item value) := by
  cases hc : t.child? item "value" with
  | some child =>
    unfold putValue
    simp only [hc]
    have hm : t.parent? child = some item :=
      hwf.mem_children.mp (List.mem_of_find?_eq_some hc)
    have hvalue := List.find?_some hc
    exact .setValue hwf hm (by rw [eq_of_beq hvalue]; decide) value
  | none =>
    obtain ⟨child, hadd⟩ := added_putValue value hwf (hwf.live_of_parent hp).1 hc
    refine ⟨hadd.wellFormed, hadd.live, fun n hn => Tree.name_eq_of_content (hadd.content n hn),
      fun n hn => Tree.attrs_eq_of_content (hadd.content n hn),
      fun n hn => congrArg Computed.repeatId (Tree.computed_eq_of_content (hadd.content n hn)),
      fun Q hq n hn => ⟨hadd.live n (hq.live n hn), ?_⟩⟩
    have hni : n ≠ item := by
      rintro rfl
      exact hq.not_mem hp hname hn
    unfold Tree.shape Tree.computed
    rw [hadd.node n (hq.live n hn) hni]

theorem fillItem_ok {item : NodeId} (h : fillItem f key item w = .ok () w') :
    ∃ value, w' = { w with space := { w.space with tree := putValue w.space.tree item value } } := by
  rw [fillItem, Action.get_bind_eq_ok] at h
  exact ⟨_, modifyTree_eq_ok.mp h⟩

/-! ## Going into a group -/

/-- The tree `t'` is `t` with a node behind the last child of `q` that stands for nothing. -/
def Marked (t : Tree) (q marker : NodeId) (t' : Tree) : Prop :=
  Added t q (t.children q ++ [marker]) { Node.unused with name := "nop" } marker t'

/-- A new node can be put behind a group that is last among its siblings. -/
theorem exists_marked {group marker : NodeId} (hwf : t.WellFormed) (hp : t.parent? group = some q)
    (hlast : t.nextSibling? group = none) (ha : t.addElement none "nop" = (marker, t₁)) :
    ∃ t', t₁.insertAfter group marker = .ok t' ∧ Marked t q marker t' := by
  have hal : Allocated t { Node.unused with name := "nop" } marker t₁ := by
    have hnew := hwf.allocated_addElement "nop"
    rw [ha] at hnew
    exact hnew
  have hlq := (hwf.live_of_parent hp).2
  obtain ⟨before, after, hs⟩ := hwf.exists_split hp
  have hafter : after = [] := by
    rw [hwf.nextSibling?_of_split hs] at hlast
    exact List.head?_eq_none_iff.mp hlast
  subst hafter
  have hs₁ : t₁.children q = before ++ group :: [] := by
    rw [Tree.children, hal.node_of_ne q (fun he => hal.fresh (he ▸ hlq)) (fun h => (nomatch h))]
    exact hs
  have hself : t₁.parent? marker = none ∧ t₁.children marker = [] := by
    unfold Tree.parent? Tree.children
    rw [hal.node_self]
    exact ⟨rfl, rfl⟩
  obtain ⟨t', hins, hput⟩ := hal.wellFormed.insertAfter_root hs₁
    ((hal.live marker).mpr (.inl rfl)) hself.1 fun hu =>
      hal.fresh (hal.wellFormed.eq_of_under_leaf hself.2 hu ▸ hlq)
  have hadd := hal.added rfl rfl hlq hput
  have hcs : before ++ [group, marker] = t.children q ++ [marker] := by rw [hs]; simp
  rw [hcs] at hadd
  exact ⟨t', hins, hadd⟩

/-- Going into a group: the next position is its first child, and behind that stands the one where the
    walk comes back. -/
theorem descend_ok {group : NodeId} (hwf : t.WellFormed) (hp : t.parent? group = some q)
    (h : descend t scan key group = .ok (t', scan')) :
    (t.firstChild? group = none ∧ t' = t ∧ scan' = scan)
      ∨ ∃ first next, t.firstChild? group = some first
        ∧ scan' = ⟨t.keyPath key group, first⟩ :: ⟨key, next⟩ :: scan
        ∧ (t.nextSibling? group = some next ∧ t' = t
          ∨ t.nextSibling? group = none ∧ Marked t q next t') := by
  unfold descend at h
  cases hf : t.firstChild? group with
  | none =>
    simp only [hf] at h
    cases h
    exact .inl ⟨rfl, rfl, rfl⟩
  | some first =>
    refine .inr ?_
    cases hn : t.nextSibling? group with
    | some next =>
      simp only [hf, hn] at h
      cases h
      exact ⟨first, next, rfl, rfl, .inl ⟨rfl, rfl⟩⟩
    | none =>
      simp only [hf, hn, hp] at h
      cases ha : t.addElement none "nop" with
      | mk marker t₁ =>
        simp only [ha] at h
        obtain ⟨t₂, hi, hm⟩ := exists_marked hwf hp hn ha
        simp only [hi] at h
        cases h
        exact ⟨first, marker, rfl, rfl, .inr ⟨rfl, hm⟩⟩

/-- A walk can always go into a group. -/
theorem exists_descend {group : NodeId} (hwf : t.WellFormed) (hp : t.parent? group = some q) (key : String)
    (scan : List Position) :
    ∃ t' scan', descend t scan key group = .ok (t', scan') := by
  unfold descend
  cases hf : t.firstChild? group with
  | none => exact ⟨t, scan, rfl⟩
  | some first =>
    cases hn : t.nextSibling? group with
    | some next => exact ⟨_, _, rfl⟩
    | none =>
      cases ha : t.addElement none "nop" with
      | mk marker t₁ =>
        obtain ⟨t₂, hi, -⟩ := exists_marked hwf hp hn ha
        simp only [hp, hi]
        exact ⟨_, _, rfl⟩

/-! ## Tags -/

/-- The name of the elements with a tag. -/
def nameOf : Tag → String
  | .item => "item"
  | .items => "items"
  | .loop => "repeat"
  | .document => "import"
  | .writer => "writer"
  | .nop => "nop"

theorem name_of_tag {name : String} {tag : Tag} (h : Tag.ofName? name = some tag) : name = nameOf tag := by
  unfold Tag.ofName? at h
  split at h <;> cases h <;> rfl

theorem tagOf_ok {tag : Tag} (h : tagOf t node = .ok tag) : t.name node = nameOf tag := by
  unfold tagOf at h
  cases ht : Tag.ofName? (t.name node) with
  | none => simp only [ht] at h; cases h
  | some tag' =>
    simp only [ht] at h
    cases h
    exact name_of_tag ht

/-! ## The name of an output -/

/-- A `writer` on the trunk of a document. -/
structure AtWriter (t : Tree) (root node : NodeId) : Prop where
  isRoot : IsRoot t root
  name : t.name node = "writer"
  parent : ∃ p, t.parent? node = some p ∧ Inner t root p

/-- The positions of a walk in the body of a `writer` stand below it, or below a group in it. -/
def InBody (t : Tree) (node : NodeId) (scan : List Position) : Prop :=
  ∀ pos ∈ scan, ∃ q, t.parent? pos.node = some q ∧ Inner t node q

/-- `t'` is `t` after changes in the body of a `writer`. -/
structure BodyStep (t : Tree) (root node : NodeId) (t' : Tree) : Prop where
  quiet : Quiet t t'
  writer : AtWriter t' root node
  inner : ∀ q, Inner t node q → Inner t' node q
  below : ∀ q m, Inner t node q → t.parent? m = some q → t'.parent? m = some q

theorem BodyStep.refl (hwf : t.WellFormed) (hw : AtWriter t root node) : BodyStep t root node t :=
  ⟨.refl hwf, hw, fun _ hq => hq, fun _ _ _ hm => hm⟩

theorem BodyStep.trans (h : BodyStep t root node t₁) (h' : BodyStep t₁ root node t₂) :
    BodyStep t root node t₂ where
  quiet := h.quiet.trans h'.quiet
  writer := h'.writer
  inner := fun q hq => h'.inner q (h.inner q hq)
  below := fun q m hq hm => h'.below q m (h.inner q hq) (h.below q m hq hm)

theorem BodyStep.inBody (h : BodyStep t root node t') (hb : InBody t node scan) :
    InBody t' node scan := by
  intro pos hpos
  obtain ⟨q, hp, hq⟩ := hb pos hpos
  exact ⟨q, h.below q pos.node hq hp, h.inner q hq⟩

/-- The body of a `writer` is off the trunk of every document. -/
theorem AtWriter.not_inner {r : NodeId} (hw : AtWriter t root node) (hwf : t.WellFormed)
    (hr : IsRoot t r) (hq : Inner t node q) : ¬ Inner t r q := by
  intro hi
  have hn := (Tree.trunk_inner hwf hr.live hr.parent?).of_under hq.under hi
  obtain ⟨p, hp, -⟩ := hw.parent
  rcases hn.name hr.parent? hp with h | h <;> rw [hw.name] at h <;> exact absurd h (by decide)

/-- The trunk of a document together with the body of a `writer` on it. -/
theorem AtWriter.trunk (hw : AtWriter t root node) (hwf : t.WellFormed) :
    Trunk t fun n => Inner t node n ∨ Inner t root n := by
  obtain ⟨p, hp, hip⟩ := hw.parent
  have ht := Tree.trunk_inner hwf hw.isRoot.live hw.isRoot.parent?
  refine ⟨⟨?_, ?_⟩, ?_⟩
  · rintro n (hn | hn)
    · exact hwf.live_of_under (hwf.live_of_parent hp).1 hn.under
    · exact ht.live n hn
  · rintro n q (hn | hn) hq
    · cases hn with
      | root =>
        rw [hp] at hq
        cases hq
        exact .inr hip
      | step hi hpi _ =>
        rw [hpi] at hq
        cases hq
        exact .inl hi
    · exact .inr (ht.up n q hn hq)
  · rintro n q (hn | hn) hq
    · cases hn with
      | root => rw [hw.name]; decide
      | step _ _ hname => rcases hname with h | h <;> rw [h] <;> decide
    · exact ht.tag n q hn hq

theorem bodyStep_of_refreshed (hwf : t.WellFormed) (hw : AtWriter t root node)
    (h : Refreshed t t') : BodyStep t root node t' := by
  have hk := h.shape _ (hw.trunk hwf)
  have hin : ∀ q, Inner t node q → Inner t' node q := by
    intro q hq
    induction hq with
    | root => exact .root
    | @step p n hi hp hn ih =>
      have hi' : Inner t node n := .step hi hp hn
      refine .step ih ((hk.parent? (.inl hi')).trans hp) ?_
      rw [hk.name (.inl hi')]
      exact hn
  obtain ⟨p, hp, hip⟩ := hw.parent
  have hkr : KeepsShape (Inner t root) t t' := fun n hn => hk n (.inr hn)
  refine ⟨quiet_of_refreshed hwf h, ⟨hw.isRoot.of_keepsShape hkr, ?_, p, ?_, hip.of_keepsShape hkr⟩,
    hin, ?_⟩
  · rw [hk.name (.inl .root)]
    exact hw.name
  · rw [hk.parent? (.inl .root)]
    exact hp
  · intro q m hq hm
    rw [← h.wellFormed.mem_children, hk.children (.inl hq)]
    exact hwf.mem_children.mpr hm

theorem bodyStep_of_marked {marker : NodeId} (hwf : t.WellFormed) (hw : AtWriter t root node)
    (hq : Inner t node q) (h : Marked t q marker t') : BodyStep t root node t' := by
  have hlive : ∀ {m}, Inner t node m → t.Live m := fun hm =>
    (hw.trunk hwf).live _ (.inl hm)
  have hin : ∀ m, Inner t node m → Inner t' node m := by
    intro m hm
    induction hm with
    | root => exact .root
    | @step p n hi hp hn ih =>
      have hln := hlive (.step hi hp hn)
      refine .step ih ((h.parent? n hln).trans hp) ?_
      rw [Tree.name_eq_of_content (h.content n hln)]
      exact hn
  have hkeep : ∀ r, IsRoot t r → KeepsShape (Inner t r) t t' := by
    intro r hr n hn
    have hln := (Tree.trunk_inner hwf hr.live hr.parent?).live n hn
    refine ⟨h.live n hln, ?_⟩
    unfold Tree.shape Tree.computed
    rw [h.node n hln fun he => hw.not_inner hwf hr hq (he ▸ hn)]
  obtain ⟨p, hp, hip⟩ := hw.parent
  have hln := (hwf.live_of_parent hp).1
  refine ⟨⟨h.wellFormed, h.live, fun n hn => Tree.name_eq_of_content (h.content n hn),
      fun n hn => Tree.attrs_eq_of_content (h.content n hn),
      fun n hn => congrArg Computed.repeatId (Tree.computed_eq_of_content (h.content n hn)), hkeep⟩,
    ⟨hw.isRoot.of_keepsShape (hkeep root hw.isRoot), ?_, p, ?_,
    hip.of_keepsShape (hkeep root hw.isRoot)⟩, hin, ?_⟩
  · rw [Tree.name_eq_of_content (h.content node hln)]
    exact hw.name
  · exact (h.parent? node hln).trans hp
  · intro q' m _ hm
    rw [h.parent? m (hwf.live_of_parent hm).1]
    exact hm

theorem writeText_ok {item : NodeId} {s s' : Sink} (hwf : w.space.tree.WellFormed)
    (h : writeText o item s w = .ok s' w') :
    w' = { w with space := w'.space } ∧ Refreshed w.space.tree w'.space.tree := by
  unfold writeText at h
  cases hj : Job.write o w.files item none ⟨w.space, s⟩ with
  | error e j => simp only [hj] at h; cases h
  | ok u j =>
    simp only [hj] at h
    cases h
    exact ⟨rfl, (Job.wrote_write hwf hj).tree⟩

theorem inBody_behind {pos : Position} (hwf : t.WellFormed) (hp : t.parent? pos.node = some q)
    (hq : Inner t node q) (hb : InBody t node scan) : InBody t node (behind t scan pos) := by
  unfold behind
  cases hn : t.nextSibling? pos.node with
  | none => exact hb
  | some next =>
    intro x hx
    rcases List.mem_cons.mp hx with rfl | hx
    · exact ⟨q, hwf.parent?_of_nextSibling? hp hn, hq⟩
    · exact hb x hx

/-- What walking in the body of a `writer` does to a walk. -/
structure Rendered (root node : NodeId) (w w' : Walk) : Prop where
  rest : w' = { w with space := w'.space }
  step : BodyStep w.space.tree root node w'.space.tree

theorem Rendered.trans {w₁ : Walk} (h : Rendered root node w w₁) (h' : Rendered root node w₁ w') :
    Rendered root node w w' where
  rest := by rw [h'.rest, h.rest]
  step := h.step.trans h'.step

theorem rendered_renderNode {s s' : Sink} {pos : Position} (hwf : w.space.tree.WellFormed)
    (hw : AtWriter w.space.tree root node) (hb : InBody w.space.tree node (pos :: scan))
    (h : renderNode o f s scan pos w = .ok (s', scan') w') :
    Rendered root node w w' ∧ InBody w'.space.tree node scan' := by
  rw [renderNode, Action.get_bind_eq_ok] at h
  obtain ⟨tag, htag, h⟩ := Action.ofExcept_bind_eq_ok.mp h
  obtain ⟨q, hp, hq⟩ := hb pos List.mem_cons_self
  have hscan : InBody w.space.tree node scan := fun x hx => hb x (List.mem_cons_of_mem _ hx)
  have hsame : Rendered root node w w := ⟨rfl, .refl hwf hw⟩
  cases tag with
  | item =>
    obtain ⟨_, w₁, h₁, h⟩ := Action.bind_eq_ok.mp h
    obtain ⟨s₂, w₂, h₂, h⟩ := Action.bind_eq_ok.mp h
    rw [Action.get_bind_eq_ok] at h
    obtain ⟨hs, rfl⟩ := Action.pure_eq_ok.mp h
    cases hs
    obtain ⟨value, rfl⟩ := fillItem_ok h₁
    have hr₁ : Refreshed w.space.tree (putValue w.space.tree pos.node value) :=
      refreshed_putValue hwf hp (by rw [tagOf_ok htag]; decide)
    have hb₁ := bodyStep_of_refreshed hwf hw hr₁
    obtain ⟨he, hr₂⟩ := writeText_ok hr₁.wellFormed h₂
    have hb₂ := bodyStep_of_refreshed hr₁.wellFormed hb₁.writer hr₂
    have hstep := hb₁.trans hb₂
    refine ⟨⟨?_, hstep⟩, ?_⟩
    · rw [he]
    · exact inBody_behind hstep.quiet.wellFormed (hstep.below q pos.node hq hp) (hstep.inner q hq)
        (hstep.inBody hscan)
  | items =>
    have hin : Inner w.space.tree node pos.node := .step hq hp (.inl (tagOf_ok htag))
    by_cases hc : w.space.tree.hasChildren pos.node = true
    · simp only [hc, if_true] at h
      obtain ⟨⟨t, scan₁⟩, hd, h⟩ := Action.ofExcept_bind_eq_ok.mp h
      dsimp only at h
      obtain ⟨_, w₁, h₁, h⟩ := Action.bind_eq_ok.mp h
      obtain ⟨hs, rfl⟩ := Action.pure_eq_ok.mp h
      cases hs
      rw [modifyTree_eq_ok.mp h₁]
      rcases descend_ok hwf hp hd with ⟨-, rfl, rfl⟩ | ⟨first, next, hf, rfl, hnext⟩
      · exact ⟨hsame, hscan⟩
      · have hpf : w.space.tree.parent? first = some pos.node :=
          hwf.mem_children.mp (List.mem_of_head? hf)
        have hstep : BodyStep w.space.tree root node t ∧ t.parent? next = some q := by
          rcases hnext with ⟨hn, rfl⟩ | ⟨-, hm⟩
          · exact ⟨.refl hwf hw, hwf.parent?_of_nextSibling? hp hn⟩
          · refine ⟨bodyStep_of_marked hwf hw hq hm, ?_⟩
            unfold Tree.parent?
            rw [hm.self]
        refine ⟨⟨rfl, hstep.1⟩, ?_⟩
        intro x hx
        rcases List.mem_cons.mp hx with rfl | hx
        · exact ⟨pos.node, hstep.1.below pos.node first hin hpf, hstep.1.inner _ hin⟩
        rcases List.mem_cons.mp hx with rfl | hx
        · exact ⟨q, hstep.2, hstep.1.inner q hq⟩
        · exact hstep.1.inBody hscan x hx
    · simp only [hc] at h
      obtain ⟨hs, rfl⟩ := Action.pure_eq_ok.mp h
      cases hs
      exact ⟨hsame, inBody_behind hwf hp hq hscan⟩
  | nop =>
    obtain ⟨hs, rfl⟩ := Action.pure_eq_ok.mp h
    cases hs
    exact ⟨hsame, inBody_behind hwf hp hq hscan⟩
  | loop => exact (Action.failAt_eq_ok.mp h).elim
  | document => exact (Action.failAt_eq_ok.mp h).elim
  | writer => exact (Action.failAt_eq_ok.mp h).elim

theorem rendered_renderFrom {k : Nat} {s s' : Sink} (hwf : w.space.tree.WellFormed)
    (hw : AtWriter w.space.tree root node) (hb : InBody w.space.tree node scan)
    (h : renderFrom o f k s scan w = .ok s' w') : Rendered root node w w' := by
  induction k generalizing w s scan with
  | zero =>
    cases scan with
    | nil =>
      obtain ⟨-, rfl⟩ := Action.pure_eq_ok.mp h
      exact ⟨rfl, .refl hwf hw⟩
    | cons pos scan => exact (Action.fail_eq_ok.mp h).elim
  | succ k ih =>
    cases scan with
    | nil =>
      obtain ⟨-, rfl⟩ := Action.pure_eq_ok.mp h
      exact ⟨rfl, .refl hwf hw⟩
    | cons pos scan =>
      unfold renderFrom at h
      obtain ⟨⟨s₁, scan₁⟩, w₁, h₁, h⟩ := Action.bind_eq_ok.mp h
      obtain ⟨hr, hb₁⟩ := rendered_renderNode hwf hw hb h₁
      exact hr.trans (ih hr.step.quiet.wellFormed hr.step.writer hb₁ h)

/-- Making the name of an output does nothing that the walk notices. -/
theorem rendered_render {name : String} (hwf : w.space.tree.WellFormed)
    (hw : AtWriter w.space.tree root node) (h : render o f node w = .ok name w') :
    Rendered root node w w' := by
  rw [render, Action.get_bind_eq_ok] at h
  obtain ⟨s, w₁, h₁, h⟩ := Action.bind_eq_ok.mp h
  obtain ⟨-, rfl⟩ := Action.pure_eq_ok.mp h
  refine rendered_renderFrom hwf hw ?_ h₁
  intro pos hpos
  split at hpos
  · rename_i first hf
    rw [List.mem_singleton.mp hpos]
    exact ⟨node, hwf.mem_children.mp (List.mem_of_head? hf), .root⟩
  · cases hpos

end Stencil.Walk
