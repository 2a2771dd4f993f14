/-
  Nodes that stand for the elements of a template.

  While a template is walked, its nodes change: fields get `value` children, a node that stands for
  nothing is put behind a group, loops leave copies behind them.  `Mirrors outputs t n e` says that the node `n`
  is still what the element `e` declares, such traces of earlier visits apart.  The elements are those of
  a template that reads no other document and computes nothing; and if there are `outputs`, a `writer` stands
  for an element that is nothing.

    * It depends on the `outline` of the nodes below `n` only (`Mirrors.congr`), and a copy of a node
      mirrors what the node does (`Mirrors.of_twins`).
    * `Beneath t n t'` says that `t'` is `t` but for what stands below `n`.  If what `n` stands for has not
      changed either, nothing has changed for what is above (`Patched`, `Relisted`).
-/
import Mathlib.Data.List.Forall2
import Stencil.Proofs.Meaning.Basic
import Stencil.Proofs.Loop

set_option autoImplicit false

namespace Stencil.Meaning

open Stencil.Tree (Under Upward Keeps KeepsParents Holds HoldsAll)

variable {outputs : Bool} {t t' t₁ t₂ : Tree} {n m p x c : NodeId} {ns ms xs ys cs : List NodeId} {e : Element}
  {es : List Element}

/-! ## Outlines -/

/-- What a walk reads of a node: all but its parent, and what was last written for it. -/
def outline (t : Tree) (n : NodeId) : Node :=
  { t.node n with
    parent := none
    computed := { Computed.none with repeatId := (t.computed n).repeatId } }

section

variable (h : outline t' m = outline t n)

include h

theorem name_of_outline : t'.name m = t.name n :=
  show (outline t' m).name = (outline t n).name by rw [h]

theorem attrs_of_outline : (t'.node m).attrs = (t.node n).attrs :=
  show (outline t' m).attrs = (outline t n).attrs by rw [h]

theorem text_of_outline : t'.text m = t.text n :=
  show (outline t' m).text = (outline t n).text by rw [h]

theorem children_of_outline : t'.children m = t.children n :=
  show (outline t' m).children = (outline t n).children by rw [h]

theorem repeatId_of_outline : (t'.computed m).repeatId = (t.computed n).repeatId :=
  show (outline t' m).computed.repeatId = (outline t n).computed.repeatId by rw [h]

end

theorem outline_of_node (h : t'.node n = t.node n) : outline t' n = outline t n := by
  unfold outline Tree.computed
  rw [h]

/-- What is kept of the writing of a node does not show. -/
theorem outline_modifyComputed {g : Computed → Computed} (hg : ∀ c, (g c).repeatId = c.repeatId) (x : NodeId) :
    outline (t.modifyComputed n g) x = outline t x := by
  unfold outline Tree.computed Tree.modifyComputed
  rw [Tree.node_modify]
  split
  · simp only [hg]
  · rfl

/-! ## Mirrors -/

/-- Whether `m` is a copy that the loop `n` has left behind it. -/
def IsCopy (t : Tree) (n m : NodeId) : Prop :=
  t.name n = "repeat" ∧ t.name m = "repeat" ∧ (t.computed m).repeatId = (t.computed n).repeatId

/-- Whether `m` is something that a visit of `n` has left behind it. -/
def IsTrace (t : Tree) (n m : NodeId) : Prop :=
  t.name n = "items" ∧ t.name m = "nop" ∨ IsCopy t n m

/-- The node `d`, with nothing below it, is what an element declares. -/
structure IsLeaf (t : Tree) (d : NodeId) (c : Element) : Prop where
  name : t.name d = c.name
  attrs : (t.node d).attrs = c.attrs
  text : t.text d = c.text
  children : t.children d = []

/-- A `value` child of a field. -/
structure IsValue (t : Tree) (v : NodeId) : Prop where
  name : t.name v = "value"
  attrs : (t.node v).attrs = []
  children : t.children v = []

/-- The nodes below a field: perhaps a value, and then what the field declares, with nothing below it. -/
def MirrorsField (t : Tree) (ns : List NodeId) (cs : List Element) : Prop :=
  ∃ vs ds, ns = vs ++ ds ∧ vs.length ≤ 1 ∧ (∀ v ∈ vs, IsValue t v) ∧ List.Forall₂ (IsLeaf t) ds cs

mutual

/-- The node `n` stands for an element; `outputs` says whether the output may change there. -/
def Mirrors (outputs : Bool) (t : Tree) (n : NodeId) : Element → Prop
  | .mk name attrs text computed cs =>
    (t.name n = name ∧ (t.node n).attrs = attrs ∨ outputs = true ∧ t.name n = "writer" ∧ name = "nop") ∧
      match Tag.ofName? name with
      | some .item =>
        simpleField (.mk name attrs text computed cs) = true ∧ MirrorsField t (t.children n) cs
      | some .items => MirrorsAll outputs t (t.children n) cs
      | some .loop =>
        literalMax (.mk name attrs text computed cs) = true ∧ (t.computed n).repeatId.isSome
          ∧ MirrorsAll outputs t (t.children n) cs
      | some .document | some .writer => False
      | some .nop | none => True

/-- The nodes of a list stand for the elements of another, in order; between two of them, there may be
    traces of a visit of the first. -/
def MirrorsAll (outputs : Bool) (t : Tree) (ns : List NodeId) : List Element → Prop
  | [] => ns = []
  | e :: es =>
    ∃ n traces rest, ns = n :: (traces ++ rest) ∧ Mirrors outputs t n e ∧ (∀ m ∈ traces, IsTrace t n m)
      ∧ (∀ m ∈ rest.head?, ¬ IsCopy t n m) ∧ MirrorsAll outputs t rest es

end

theorem Mirrors.head (h : Mirrors outputs t n e) :
    t.name n = e.name ∧ (t.node n).attrs = e.attrs ∨ outputs = true ∧ t.name n = "writer" ∧ e.name = "nop" := by
  cases e
  rw [Mirrors] at h
  exact h.1

theorem Mirrors.name (h : Mirrors outputs t n e) (hne : t.name n ≠ "writer") : e.name = t.name n :=
  (h.head.resolve_right fun hw => hne hw.2.1).1.symm

theorem Mirrors.attrs (h : Mirrors outputs t n e) (hne : t.name n ≠ "writer") : (t.node n).attrs = e.attrs :=
  (h.head.resolve_right fun hw => hne hw.2.1).2

theorem Mirrors.attr? (h : Mirrors outputs t n e) (hne : t.name n ≠ "writer") (name : String) :
    t.attr? n name = e.attr? name := by
  unfold Tree.attr? Element.attr?
  rw [h.attrs hne]

theorem Mirrors.keyPath (h : Mirrors outputs t n e) (hne : t.name n ≠ "writer") (key : String) :
    t.keyPath key n = keyIn key e := by
  unfold Tree.keyPath keyIn
  rw [h.attr? hne]

/-- What a field stands for. -/
theorem mirrors_item (hname : t.name n = "item") :
    Mirrors outputs t n e ↔ e.name = "item" ∧ (t.node n).attrs = e.attrs ∧ simpleField e = true
      ∧ MirrorsField t (t.children n) e.children := by
  obtain ⟨name, attrs, text, computed, cs⟩ := e
  rw [Mirrors, hname]
  constructor
  · rintro ⟨⟨rfl, ha⟩ | ⟨-, h, -⟩, hc⟩
    · exact ⟨rfl, ha, hc⟩
    · exact absurd h (by decide)
  · rintro ⟨rfl, ha, hc⟩
    exact ⟨.inl ⟨rfl, ha⟩, hc⟩

/-- What a group stands for. -/
theorem mirrors_items (hname : t.name n = "items") :
    Mirrors outputs t n e ↔ e.name = "items" ∧ (t.node n).attrs = e.attrs
      ∧ MirrorsAll outputs t (t.children n) e.children := by
  obtain ⟨name, attrs, text, computed, cs⟩ := e
  rw [Mirrors, hname]
  constructor
  · rintro ⟨⟨rfl, ha⟩ | ⟨-, h, -⟩, hc⟩
    · exact ⟨rfl, ha, hc⟩
    · exact absurd h (by decide)
  · rintro ⟨rfl, ha, hc⟩
    exact ⟨.inl ⟨rfl, ha⟩, hc⟩

/-- What a loop stands for. -/
theorem mirrors_loop (hname : t.name n = "repeat") :
    Mirrors outputs t n e ↔ e.name = "repeat" ∧ (t.node n).attrs = e.attrs ∧ literalMax e = true
      ∧ (t.computed n).repeatId.isSome ∧ MirrorsAll outputs t (t.children n) e.children := by
  obtain ⟨name, attrs, text, computed, cs⟩ := e
  rw [Mirrors, hname]
  constructor
  · rintro ⟨⟨rfl, ha⟩ | ⟨-, h, -⟩, hc⟩
    · exact ⟨rfl, ha, hc⟩
    · exact absurd h (by decide)
  · rintro ⟨rfl, ha, hc⟩
    exact ⟨.inl ⟨rfl, ha⟩, hc⟩

theorem mirrorsAll_nil : MirrorsAll outputs t ns [] ↔ ns = [] := by rw [MirrorsAll]

theorem mirrorsAll_cons : MirrorsAll outputs t ns (e :: es) ↔ ∃ n traces rest, ns = n :: (traces ++ rest)
    ∧ Mirrors outputs t n e ∧ (∀ m ∈ traces, IsTrace t n m) ∧ (∀ m ∈ rest.head?, ¬ IsCopy t n m)
    ∧ MirrorsAll outputs t rest es := by
  rw [MirrorsAll]

theorem MirrorsAll.eq_nil_iff (h : MirrorsAll outputs t ns es) : ns = [] ↔ es = [] := by
  cases es with
  | nil => exact ⟨fun _ => rfl, fun _ => mirrorsAll_nil.mp h⟩
  | cons e es =>
    obtain ⟨n, traces, rest, rfl, -⟩ := mirrorsAll_cons.mp h
    exact ⟨fun h => absurd h (List.cons_ne_nil _ _), fun h => absurd h (List.cons_ne_nil _ _)⟩

/-! ## Where outlines are kept -/

section

variable (hname : t'.name n = t.name n) (hid : (t'.computed n).repeatId = (t.computed n).repeatId)
  (hname' : t'.name m = t.name m) (hid' : (t'.computed m).repeatId = (t.computed m).repeatId)

include hname hid hname' hid'

theorem IsCopy.congr : IsCopy t' n m ↔ IsCopy t n m := by
  unfold IsCopy
  rw [hname, hid, hname', hid']

theorem IsTrace.congr : IsTrace t' n m ↔ IsTrace t n m := by
  unfold IsTrace
  rw [IsCopy.congr hname hid hname' hid', hname, hname']

end

theorem IsLeaf.congr {d : NodeId} (h : IsLeaf t d e) (ho : outline t' d = outline t d) : IsLeaf t' d e where
  name := (name_of_outline ho).trans h.name
  attrs := (attrs_of_outline ho).trans h.attrs
  text := (text_of_outline ho).trans h.text
  children := (children_of_outline ho).trans h.children

theorem IsValue.congr {v : NodeId} (h : IsValue t v) (ho : outline t' v = outline t v) : IsValue t' v where
  name := (name_of_outline ho).trans h.name
  attrs := (attrs_of_outline ho).trans h.attrs
  children := (children_of_outline ho).trans h.children

theorem forall₂_isLeaf_congr {ds : List NodeId} {cs : List Element} (h : List.Forall₂ (IsLeaf t) ds cs)
    (heq : ∀ d ∈ ds, outline t' d = outline t d) : List.Forall₂ (IsLeaf t') ds cs := by
  induction h with
  | nil => exact .nil
  | cons hd _ ih =>
    exact .cons (hd.congr (heq _ List.mem_cons_self)) (ih fun d hd => heq d (List.mem_cons_of_mem _ hd))

theorem MirrorsField.congr {cs : List Element} (h : MirrorsField t ns cs)
    (heq : ∀ i ∈ ns, outline t' i = outline t i) : MirrorsField t' ns cs := by
  obtain ⟨vs, ds, rfl, hlen, hvs, hds⟩ := h
  exact ⟨vs, ds, rfl, hlen, fun v hv => (hvs v hv).congr (heq v (List.mem_append_left _ hv)),
    forall₂_isLeaf_congr hds fun d hd => heq d (List.mem_append_right _ hd)⟩

/-- What is to be known of a node `x` for it to stand in `t'` for what it stands for in `t`, provided that its
    children do if `P` holds for them. -/
structure Settled (outputs : Bool) (t t' : Tree) (P : NodeId → Prop) (x : NodeId) : Prop where
  name : t'.name x = t.name x
  repeatId : (t'.computed x).repeatId = (t.computed x).repeatId
  mirrors : (∀ e, Mirrors outputs t x e → Mirrors outputs t' x e) ∨ outline t' x = outline t x
    ∧ (∀ c ∈ t.children x, P c) ∧ (t.name x = "item" → ∀ c ∈ t.children x, outline t' c = outline t c)

section

variable {P : NodeId → Prop} (h : ∀ x, P x → Settled outputs t t' P x)

include h

mutual

theorem Mirrors.transfer : ∀ {e : Element} {x : NodeId}, P x → Mirrors outputs t x e → Mirrors outputs t' x e
  | .mk name attrs text c cs, x, hx, hm => by
    rcases (h x hx).mirrors with hself | ⟨ho, hbelow, hitem⟩
    · exact hself _ hm
    rw [Mirrors] at hm ⊢
    obtain ⟨hn, hc⟩ := hm
    rw [name_of_outline ho, attrs_of_outline ho, children_of_outline ho, repeatId_of_outline ho]
    refine ⟨hn, ?_⟩
    cases htag : Tag.ofName? name with
    | none => trivial
    | some tag =>
      simp only [htag] at hc
      cases tag with
      | item =>
        refine ⟨hc.1, hc.2.congr (hitem ?_)⟩
        rcases hn with ⟨hn, -⟩ | ⟨-, -, hn⟩
        · rw [hn]
          unfold Tag.ofName? at htag
          split at htag <;> cases htag
          rfl
        · rw [hn] at htag
          cases htag
      | items => exact MirrorsAll.transfer hbelow hc
      | loop => exact ⟨hc.1, hc.2.1, MirrorsAll.transfer hbelow hc.2.2⟩
      | document => exact hc
      | writer => exact hc
      | nop => trivial

/-- Nodes go on to stand for elements if each of them does, and names and numbers of loops are kept. -/
theorem MirrorsAll.transfer : ∀ {es : List Element} {ns : List NodeId}, (∀ i ∈ ns, P i) →
    MirrorsAll outputs t ns es → MirrorsAll outputs t' ns es
  | [], _, _, hm => mirrorsAll_nil.mpr (mirrorsAll_nil.mp hm)
  | e :: es, ns, hns, hm => by
    obtain ⟨n, traces, rest, rfl, hn, ht, hb, hr⟩ := mirrorsAll_cons.mp hm
    have hrest : ∀ i ∈ rest, i ∈ n :: (traces ++ rest) :=
      fun i hi => List.mem_cons_of_mem _ (List.mem_append_right _ hi)
    have hfirst := h n (hns n List.mem_cons_self)
    refine mirrorsAll_cons.mpr ⟨n, traces, rest, rfl, Mirrors.transfer (hns n List.mem_cons_self) hn,
      fun m hm => ?_, fun m hm => ?_, MirrorsAll.transfer (fun i hi => hns i (hrest i hi)) hr⟩
    · have hm' := h m (hns m (List.mem_cons_of_mem _ (List.mem_append_left _ hm)))
      rw [IsTrace.congr hfirst.name hfirst.repeatId hm'.name hm'.repeatId]
      exact ht m hm
    · have hm' := h m (hns m (hrest m (List.mem_of_mem_head? hm)))
      rw [IsCopy.congr hfirst.name hfirst.repeatId hm'.name hm'.repeatId]
      exact hb m hm

end

end

/-- Where no outline changes from a node on, it stands for what it did. -/
theorem settled_of_outlines (hwf : t.WellFormed) (heq : ∀ x, Under t n x → outline t' x = outline t x)
    (hx : Under t n x) : Settled outputs t t' (Under t n) x := by
  have hbelow : ∀ c ∈ t.children x, Under t n c := fun c hc => .child (hwf.mem_children.mp hc) hx
  exact ⟨name_of_outline (heq x hx), repeatId_of_outline (heq x hx),
    .inr ⟨heq x hx, hbelow, fun _ c hc => heq c (hbelow c hc)⟩⟩

theorem Mirrors.congr (hwf : t.WellFormed) (h : Mirrors outputs t n e)
    (heq : ∀ x, Under t n x → outline t' x = outline t x) : Mirrors outputs t' n e :=
  Mirrors.transfer (fun _ hx => settled_of_outlines hwf heq hx) .self h

theorem MirrorsAll.congr (hwf : t.WellFormed) (h : MirrorsAll outputs t ns es)
    (heq : ∀ i ∈ ns, ∀ x, Under t i x → outline t' x = outline t x) : MirrorsAll outputs t' ns es := by
  refine MirrorsAll.transfer (P := fun x => ∃ i ∈ ns, Under t i x) ?_ (fun i hi => ⟨i, hi, .self⟩) h
  rintro x ⟨i, hi, hx⟩
  have hs : Settled outputs t t' (Under t i) x := settled_of_outlines hwf (heq i hi) hx
  refine ⟨hs.name, hs.repeatId, hs.mirrors.imp_right fun ⟨ho, hbelow, hitem⟩ => ⟨ho, ?_, hitem⟩⟩
  exact fun c hc => ⟨i, hi, hbelow c hc⟩

/-! ## Changes below a node -/

/-- `t'` is `t` but for what stands below `n`. -/
structure Beneath (t : Tree) (n : NodeId) (t' : Tree) : Prop where
  wellFormed : t'.WellFormed
  live : ∀ x, t.Live x → ¬ Under t n x ∨ x = n → t'.Live x
  parent? : ∀ x, t.Live x → ¬ Under t n x ∨ x = n → t'.parent? x = t.parent? x
  outline : ∀ x, t.Live x → ¬ Under t n x → outline t' x = outline t x
  name : t'.name n = t.name n
  attrs : (t'.node n).attrs = (t.node n).attrs
  repeatId : (t'.computed n).repeatId = (t.computed n).repeatId

namespace Beneath

theorem refl (hwf : t.WellFormed) (n : NodeId) : Beneath t n t :=
  ⟨hwf, fun _ hx _ => hx, fun _ _ _ => rfl, fun _ _ _ => rfl, rfl, rfl, rfl⟩

/-- What is outside stays outside. -/
theorem under (hwf : t.WellFormed) (h : Beneath t n t') (hx : t.Live x) (hout : ¬ Under t n x) :
    ¬ Under t' n x := by
  rw [Tree.under_congr fun m hm =>
    h.parent? m (hwf.live_of_under' hx hm) (.inl fun hu => hout (hu.trans hm))]
  exact hout

theorem trans (hwf : t.WellFormed) (h : Beneath t n t₁) (h' : Beneath t₁ n t₂) : Beneath t n t₂ := by
  have hside : ∀ x, t.Live x → ¬ Under t n x ∨ x = n → ¬ Under t₁ n x ∨ x = n :=
    fun x hx hout => hout.imp_left fun hout => h.under hwf hx hout
  refine ⟨h'.wellFormed, fun x hx hout => h'.live x (h.live x hx hout) (hside x hx hout),
    fun x hx hout => ?_, fun x hx hout => ?_, h'.name.trans h.name, h'.attrs.trans h.attrs,
    h'.repeatId.trans h.repeatId⟩
  · rw [h'.parent? x (h.live x hx hout) (hside x hx hout), h.parent? x hx hout]
  · rw [h'.outline x (h.live x hx (.inl hout)) (h.under hwf hx hout), h.outline x hx hout]

/-- What stands below a node stands below its parent. -/
theorem up (hwf : t.WellFormed) (hp : t.parent? n = some p) (h : Beneath t n t') : Beneath t p t' := by
  obtain ⟨-, hl⟩ := hwf.live_of_parent hp
  have hside : ∀ x, ¬ Under t p x ∨ x = p → ¬ Under t n x := by
    rintro x (hx | rfl)
    · exact fun hu => hx ((Tree.under_of_parent hp).trans hu)
    · exact hwf.not_under_parent hp
  have ho := h.outline p hl (hside p (.inr rfl))
  exact ⟨h.wellFormed, fun x hx hout => h.live x hx (.inl (hside x hout)),
    fun x hx hout => h.parent? x hx (.inl (hside x hout)),
    fun x hx hout => h.outline x hx (hside x (.inl hout)), name_of_outline ho, attrs_of_outline ho,
    repeatId_of_outline ho⟩

theorem name_of (h : Beneath t n t') (hx : t.Live x) (hout : ¬ Under t n x ∨ x = n) :
    t'.name x = t.name x ∧ (t'.computed x).repeatId = (t.computed x).repeatId := by
  rcases hout with hout | rfl
  · have ho := h.outline x hx hout
    exact ⟨name_of_outline ho, repeatId_of_outline ho⟩
  · exact ⟨h.name, h.repeatId⟩

/-- The children of a node outside are the same, and they are outside as well, or the node itself. -/
theorem child (hwf : t.WellFormed) (hc : t.parent? c = some x) (hout : ¬ Under t n x) :
    t.Live c ∧ (¬ Under t n c ∨ c = n) := by
  refine ⟨(hwf.live_of_parent hc).1, ?_⟩
  by_cases hcn : c = n
  · exact .inr hcn
  · exact .inl fun hu => hout (hu.of_parent hc hcn)

/-- A new child of a node. -/
theorem of_added {new : Node} (hl : t.Live n) (h : Tree.Added t n ns new m t') : Beneath t n t' where
  wellFormed := h.wellFormed
  live := fun x hx _ => h.live x hx
  parent? := fun x hx _ => h.parent? x hx
  outline := fun x hx hout => outline_of_node (h.node x hx (by rintro rfl; exact hout .self))
  name := Tree.name_eq_of_content (h.content n hl)
  attrs := Tree.attrs_eq_of_content (h.content n hl)
  repeatId := congrArg Computed.repeatId (Tree.computed_eq_of_content (h.content n hl))

/-- What was last written is kept with a field. -/
theorem modifyComputed (hwf : t.WellFormed) {g : Computed → Computed} (hg : ∀ c, (g c).repeatId = c.repeatId) :
    Beneath t n (t.modifyComputed n g) := by
  have ho := outline_modifyComputed (t := t) (n := n) hg
  exact ⟨hwf.modifyComputed n g, fun x hx _ => (Tree.live_modify t n x _).mpr hx,
    fun x _ _ => Tree.parent?_modifyComputed g, fun x _ _ => ho x, name_of_outline (ho n), attrs_of_outline (ho n),
    repeatId_of_outline (ho n)⟩

end Beneath

/-- `t'` is `t` but for what stands below `n`, and `n` stands for what it stood for.  It is no part of a
    field. -/
structure Patched (outputs : Bool) (t : Tree) (n : NodeId) (t' : Tree) : Prop extends Beneath t n t' where
  placed : ∀ p, t.parent? n = some p → t.name p = "item" → t.parent? p = none
  mirrors : ∀ e, Mirrors outputs t n e → Mirrors outputs t' n e

/-- `t'` is `t` but for what stands below `p`, and the children of `p` stand for what they stood for. -/
structure Relisted (outputs : Bool) (t : Tree) (p : NodeId) (t' : Tree) : Prop extends Beneath t p t' where
  mirrorsAll : ∀ es, MirrorsAll outputs t (t.children p) es → MirrorsAll outputs t' (t'.children p) es

/-- What stands outside stands for what it did. -/
theorem Patched.settled (hwf : t.WellFormed) (h : Patched outputs t n t') (hx : t.parent? x = some p)
    (hout : ¬ Under t n x ∨ x = n) :
    Settled outputs t t' (fun x => (∃ p, t.parent? x = some p) ∧ (¬ Under t n x ∨ x = n)) x := by
  obtain ⟨hname, hid⟩ := h.name_of (hwf.live_of_parent hx).1 hout
  refine ⟨hname, hid, ?_⟩
  rcases hout with hout | rfl
  · refine .inr ⟨h.outline x (hwf.live_of_parent hx).1 hout, fun c hc => ?_, fun hitem c hc => ?_⟩
    · have hpc := hwf.mem_children.mp hc
      exact ⟨⟨x, hpc⟩, (Beneath.child hwf hpc hout).2⟩
    · have hpc := hwf.mem_children.mp hc
      obtain ⟨hl, hc⟩ := Beneath.child hwf hpc hout
      refine h.outline c hl (hc.resolve_right ?_)
      rintro rfl
      rw [h.placed x hpc hitem] at hx
      cases hx
  · exact .inl h.mirrors

theorem Patched.mirrorsAll_of (hwf : t.WellFormed) (h : Patched outputs t n t')
    (hns : ∀ i ∈ ns, (∃ p, t.parent? i = some p) ∧ (¬ Under t n i ∨ i = n)) (hm : MirrorsAll outputs t ns es) :
    MirrorsAll outputs t' ns es :=
  MirrorsAll.transfer (fun _ hx => h.settled hwf hx.1.choose_spec hx.2) hns hm

/-- The siblings of a node stand for what they did, and so does the node. -/
theorem Patched.relisted (hwf : t.WellFormed) (hp : t.parent? n = some p) (h : Patched outputs t n t') :
    Relisted outputs t p t' where
  toBeneath := h.toBeneath.up hwf hp
  mirrorsAll := by
    intro es hm
    have hl := (hwf.live_of_parent hp).2
    rw [children_of_outline (h.outline p hl (hwf.not_under_parent hp))]
    refine h.mirrorsAll_of hwf (fun i hi => ?_) hm
    have hpi := hwf.mem_children.mp hi
    exact ⟨⟨p, hpi⟩, (Beneath.child hwf hpi (hwf.not_under_parent hp)).2⟩

/-- A group or a loop whose children stand for what they did does so, too. -/
theorem Relisted.patched (h : Relisted outputs t p t') (hname : t.name p = "items" ∨ t.name p = "repeat")
    (hplaced : ∀ q, t.parent? p = some q → t.name q = "item" → t.parent? q = none) : Patched outputs t p t' where
  toBeneath := h.toBeneath
  placed := hplaced
  mirrors := by
    intro e hm
    rcases hname with hname | hname
    · rw [mirrors_items hname] at hm
      rw [mirrors_items (h.name.trans hname), h.attrs]
      exact ⟨hm.1, hm.2.1, h.mirrorsAll _ hm.2.2⟩
    · rw [mirrors_loop hname] at hm
      rw [mirrors_loop (h.name.trans hname), h.attrs, h.repeatId]
      exact ⟨hm.1, hm.2.1, hm.2.2.1, hm.2.2.2.1, h.mirrorsAll _ hm.2.2.2.2⟩

/-! ## Traces -/

theorem IsCopy.trans (h : IsCopy t n m) (h' : IsCopy t m c) : IsCopy t n c :=
  ⟨h.1, h'.2.1, h'.2.2.trans h.2.2⟩

theorem IsCopy.symm (h : IsCopy t n m) : IsCopy t m n := ⟨h.2.1, h.1, h.2.2.symm⟩

/-- What a loop has left behind it are copies. -/
theorem IsTrace.isCopy (h : IsTrace t n m) (hname : t.name m = "repeat") : IsCopy t n m := by
  rcases h with ⟨-, h⟩ | h
  · rw [h] at hname
    exact absurd hname (by decide)
  · exact h

/-- A node that stands for nothing is put behind a group that was last. -/
theorem MirrorsAll.append_marker (hname : t.name n = "items") (hmark : t.name m = "nop")
    (h : MirrorsAll outputs t (xs ++ [n]) es) : MirrorsAll outputs t (xs ++ [n, m]) es := by
  induction es generalizing xs with
  | nil => exact absurd (mirrorsAll_nil.mp h) (by simp)
  | cons e es ih =>
    obtain ⟨n₁, traces, rest, heq, hn, ht, hb, hr⟩ := mirrorsAll_cons.mp h
    rcases List.eq_nil_or_concat rest with rfl | ⟨rest, z, rfl⟩
    · -- the group stands for the last element, or it is a trace, which it is not
      rw [List.append_nil] at heq
      rcases List.eq_nil_or_concat traces with rfl | ⟨traces, z, rfl⟩
      · obtain ⟨rfl, rfl⟩ : xs = [] ∧ n = n₁ := by simpa using List.append_eq_cons_iff.mp heq
        refine mirrorsAll_cons.mpr ⟨n, [m], [], rfl, hn, fun m' hm' => ?_, hb, hr⟩
        rw [List.mem_singleton.mp hm']
        exact .inl ⟨hname, hmark⟩
      · rw [List.concat_eq_append, ← List.cons_append] at heq
        obtain ⟨-, hz⟩ := List.append_inj' heq rfl
        cases hz
        rcases ht n (by simp) with ⟨-, h⟩ | h
        · rw [hname] at h
          exact absurd h (by decide)
        · rw [h.2.1] at hname
          exact absurd hname (by decide)
    · rw [List.concat_eq_append] at heq hb hr
      rw [← List.append_assoc, ← List.cons_append] at heq
      obtain ⟨hxs, hz⟩ := List.append_inj' heq rfl
      cases hz
      refine mirrorsAll_cons.mpr ⟨n₁, traces, rest ++ [n, m], ?_, hn, ht, ?_, ih hr⟩
      · rw [hxs]
        simp
      · intro m' hm'
        refine hb m' ?_
        cases rest with
        | nil => exact hm'
        | cons => exact hm'

/-- Two ways to divide a list into copies of a loop and what begins with none are the same. -/
theorem eq_of_copies {as bs : List NodeId} (has : ∀ c ∈ as, IsCopy t n c) (hxs : ∀ c ∈ xs.head?, ¬ IsCopy t n c)
    (hbs : ∀ c ∈ bs, IsCopy t n c) (hys : ∀ c ∈ ys.head?, ¬ IsCopy t n c) (h : as ++ xs = bs ++ ys) :
    as = bs ∧ xs = ys := by
  induction as generalizing bs with
  | nil =>
    cases bs with
    | nil => exact ⟨rfl, h⟩
    | cons b bs =>
      have hb := hbs b List.mem_cons_self
      rw [List.nil_append] at h
      rw [h] at hxs
      exact absurd hb (hxs b rfl)
  | cons a as ih =>
    cases bs with
    | nil =>
      rw [List.nil_append] at h
      rw [← h] at hys
      exact absurd (has a List.mem_cons_self) (hys a rfl)
    | cons b bs =>
      obtain ⟨rfl, htail⟩ := List.cons_eq_cons.mp h
      obtain ⟨rfl, rfl⟩ := ih (fun c hc => has c (List.mem_cons_of_mem _ hc))
        (fun c hc => hbs c (List.mem_cons_of_mem _ hc)) htail
      exact ⟨rfl, rfl⟩

/-- The copies of a loop may be dropped. -/
theorem MirrorsAll.drop_copies (hname : t.name n = "repeat") (hcs : ∀ c ∈ cs, IsCopy t n c)
    (hys : ∀ c ∈ ys.head?, ¬ IsCopy t n c) (h : MirrorsAll outputs t (xs ++ n :: (cs ++ ys)) es) :
    MirrorsAll outputs t (xs ++ n :: ys) es := by
  induction es generalizing xs with
  | nil => exact absurd (mirrorsAll_nil.mp h) (by simp)
  | cons e es ih =>
    obtain ⟨n₁, traces, rest, heq, hn, ht, hb, hr⟩ := mirrorsAll_cons.mp h
    cases xs with
    | nil =>
      obtain ⟨rfl, htail⟩ := List.cons_eq_cons.mp heq
      have ht' : ∀ c ∈ traces, IsCopy t n c := by
        intro c hc
        rcases ht c hc with ⟨h, -⟩ | h
        · rw [hname] at h
          exact absurd h (by decide)
        · exact h
      obtain ⟨rfl, rfl⟩ := eq_of_copies hcs hys ht' hb htail
      exact mirrorsAll_cons.mpr ⟨n, [], ys, rfl, hn, fun _ hm => absurd hm List.not_mem_nil, hb, hr⟩
    | cons x xs =>
      obtain ⟨rfl, hxs⟩ := List.cons_eq_cons.mp heq
      rcases List.append_eq_append_iff.mp hxs with ⟨as, rfl, htail⟩ | ⟨as, rfl, rfl⟩
      · cases as with
        | nil =>
          -- the loop stands for the next element
          rw [List.nil_append] at htail
          subst htail
          refine mirrorsAll_cons.mpr ⟨x, xs, n :: ys, by simp, hn, fun m hm => ht m (by simpa using hm),
            fun m hm => hb m hm, ih (by rwa [List.nil_append])⟩
        | cons a as =>
          -- the loop is itself a copy
          obtain ⟨rfl, hcs'⟩ := List.cons_eq_cons.mp htail
          have hcopy : IsCopy t x n := (ht n (by simp)).isCopy hname
          have has : ∀ c ∈ as, IsCopy t x c := by
            intro c hc
            rcases ht c (by simp [hc]) with ⟨h, -⟩ | h
            · rw [hcopy.1] at h
              exact absurd h (by decide)
            · exact h
          obtain ⟨rfl, rfl⟩ := eq_of_copies (fun c hc => hcopy.trans (hcs c hc))
            (fun c hc h => hys c hc (hcopy.symm.trans h)) has hb hcs'
          refine mirrorsAll_cons.mpr ⟨x, xs ++ [n], ys, by simp, hn, fun m hm => ht m ?_, hb, hr⟩
          rcases List.mem_append.mp hm with hm | hm
          · exact List.mem_append_left _ hm
          · rw [List.mem_singleton.mp hm]
            simp
      · refine mirrorsAll_cons.mpr ⟨x, traces, as ++ n :: ys, by simp, hn, ht, fun m hm => hb m ?_, ih hr⟩
        cases as with
        | nil => exact hm
        | cons => exact hm

/-- A further copy may stand behind a loop, or behind a copy of it. -/
theorem MirrorsAll.add_copy (hc : IsCopy t n c) (h : MirrorsAll outputs t (xs ++ n :: ys) es) :
    MirrorsAll outputs t (xs ++ n :: c :: ys) es := by
  induction es generalizing xs with
  | nil => exact absurd (mirrorsAll_nil.mp h) (by simp)
  | cons e es ih =>
    obtain ⟨n₁, traces, rest, heq, hn, ht, hb, hr⟩ := mirrorsAll_cons.mp h
    cases xs with
    | nil =>
      obtain ⟨rfl, rfl⟩ := List.cons_eq_cons.mp heq
      refine mirrorsAll_cons.mpr ⟨n, c :: traces, rest, rfl, hn, fun m hm => ?_, hb, hr⟩
      rcases List.mem_cons.mp hm with rfl | hm
      · exact .inr hc
      · exact ht m hm
    | cons x xs =>
      obtain ⟨rfl, hxs⟩ := List.cons_eq_cons.mp heq
      rcases List.append_eq_append_iff.mp hxs with ⟨as, rfl, htail⟩ | ⟨as, rfl, rfl⟩
      · cases as with
        | nil =>
          rw [List.nil_append] at htail
          subst htail
          exact mirrorsAll_cons.mpr ⟨x, xs, n :: c :: ys, by simp, hn, fun m hm => ht m (by simpa using hm),
            fun m hm => hb m hm, ih (by rwa [List.nil_append])⟩
        | cons a as =>
          obtain ⟨rfl, rfl⟩ := List.cons_eq_cons.mp htail
          refine mirrorsAll_cons.mpr ⟨x, xs ++ n :: c :: as, rest, by simp, hn, fun m hm => ?_, hb, hr⟩
          have hcopy : IsCopy t x n := (ht n (by simp)).isCopy hc.1
          rcases List.mem_append.mp hm with hm | hm
          · exact ht m (by simp [hm])
          rcases List.mem_cons.mp hm with rfl | hm
          · exact .inr hcopy
          rcases List.mem_cons.mp hm with rfl | hm
          · exact .inr (hcopy.trans hc)
          · exact ht m (by simp [hm])
      · refine mirrorsAll_cons.mpr ⟨x, traces, as ++ n :: c :: ys, by simp, hn, ht, fun m hm => hb m ?_, ih hr⟩
        cases as with
        | nil => exact hm
        | cons => exact hm

/-! ## Copies -/

/-- The node `m` of `t'` is a copy of the node `n` of `t`. -/
def Twin (t t' : Tree) (n m : NodeId) : Prop := ∃ e, Tree.Holds t n e ∧ Tree.Holds t' m e

theorem forall₂_of_holdsAll : ∀ {es : List Element} {ns ms : List NodeId}, HoldsAll t ns es →
    HoldsAll t' ms es → List.Forall₂ (Twin t t') ns ms
  | [], [], [], _, _ => .nil
  | e :: es, n :: ns, m :: ms, h, h' => by
    rw [HoldsAll] at h h'
    exact .cons ⟨e, h.1, h'.1⟩ (forall₂_of_holdsAll h.2 h'.2)
  | [], [], _ :: _, _, h' => by rw [HoldsAll] at h'; exact h'.elim
  | [], _ :: _, _, h, _ => by rw [HoldsAll] at h; exact h.elim
  | _ :: _, [], _, h, _ => by rw [HoldsAll] at h; exact h.elim
  | _ :: _, _ :: _, [], _, h' => by rw [HoldsAll] at h'; exact h'.elim

theorem forall₂_append {α β : Type} {R : α → β → Prop} {as bs : List α} {cs : List β}
    (h : List.Forall₂ R (as ++ bs) cs) :
    ∃ xs ys, cs = xs ++ ys ∧ List.Forall₂ R as xs ∧ List.Forall₂ R bs ys := by
  refine ⟨cs.take as.length, cs.drop as.length, (List.take_append_drop _ _).symm, ?_, ?_⟩
  · simpa using List.forall₂_take as.length h
  · simpa using List.forall₂_drop as.length h

theorem exists_of_forall₂ {α β : Type} {R : α → β → Prop} {as : List α} {bs : List β}
    (h : List.Forall₂ R as bs) {b : β} (hb : b ∈ bs) : ∃ a ∈ as, R a b := by
  induction h with
  | nil => cases hb
  | @cons a b' as bs hr _ ih =>
    rcases List.mem_cons.mp hb with rfl | hb
    · exact ⟨a, List.mem_cons_self, hr⟩
    · obtain ⟨a', ha', hr'⟩ := ih hb
      exact ⟨a', List.mem_cons_of_mem _ ha', hr'⟩

namespace Twin

theorem content (h : Twin t t' n m) : t'.content m = t.content n := by
  obtain ⟨e, hn, hm⟩ := h
  exact hm.content.trans hn.content.symm

theorem children (h : Twin t t' n m) : List.Forall₂ (Twin t t') (t.children n) (t'.children m) := by
  obtain ⟨e, hn, hm⟩ := h
  exact forall₂_of_holdsAll hn.children hm.children

theorem name (h : Twin t t' n m) : t'.name m = t.name n :=
  show (t'.content m).name = (t.content n).name by rw [h.content]

theorem attrs (h : Twin t t' n m) : (t'.node m).attrs = (t.node n).attrs :=
  show (t'.content m).attrs = (t.content n).attrs by rw [h.content]

theorem text (h : Twin t t' n m) : t'.text m = t.text n :=
  show (t'.content m).text = (t.content n).text by rw [h.content]

theorem repeatId (h : Twin t t' n m) : (t'.computed m).repeatId = (t.computed n).repeatId :=
  show (t'.content m).computed.repeatId = (t.content n).computed.repeatId by rw [h.content]

theorem children_eq_nil (h : Twin t t' n m) (hn : t.children n = []) : t'.children m = [] := by
  have hc := h.children
  rw [hn] at hc
  exact List.forall₂_nil_left_iff.mp hc

end Twin

theorem IsCopy.of_twins {n' m' : NodeId} (hn : Twin t t' n n') (hm : Twin t t' m m') :
    IsCopy t' n' m' ↔ IsCopy t n m := by
  unfold IsCopy
  rw [hn.name, hn.repeatId, hm.name, hm.repeatId]

theorem IsLeaf.of_twin {d d' : NodeId} (h : IsLeaf t d e) (htwin : Twin t t' d d') : IsLeaf t' d' e where
  name := htwin.name.trans h.name
  attrs := htwin.attrs.trans h.attrs
  text := htwin.text.trans h.text
  children := htwin.children_eq_nil h.children

theorem IsValue.of_twin {v v' : NodeId} (h : IsValue t v) (htwin : Twin t t' v v') : IsValue t' v' where
  name := htwin.name.trans h.name
  attrs := htwin.attrs.trans h.attrs
  children := htwin.children_eq_nil h.children

theorem MirrorsField.of_twins {cs : List Element} (h : MirrorsField t ns cs)
    (htwins : List.Forall₂ (Twin t t') ns ms) : MirrorsField t' ms cs := by
  obtain ⟨vs, ds, rfl, hlen, hvs, hds⟩ := h
  obtain ⟨vs', ds', rfl, htv, htd⟩ := forall₂_append htwins
  refine ⟨vs', ds', rfl, htv.length_eq ▸ hlen, fun v hv => ?_, ?_⟩
  · obtain ⟨v', hv', htwin⟩ := exists_of_forall₂ htv hv
    exact (hvs v' hv').of_twin htwin
  · clear htwins hlen
    induction htd generalizing cs with
    | nil =>
      cases hds
      exact .nil
    | cons hd _ ih =>
      cases hds with
      | cons h hds => exact .cons (h.of_twin hd) (ih hds)

mutual

/-- A copy stands for what the node stands for. -/
theorem Mirrors.of_twins : ∀ {e : Element} {n m : NodeId}, Twin t t' n m → Mirrors outputs t n e → Mirrors outputs t' m e
  | .mk name attrs text c cs, n, m, htwin, hm => by
    rw [Mirrors] at hm ⊢
    rw [htwin.name, htwin.attrs, htwin.repeatId]
    obtain ⟨hn, hc⟩ := hm
    refine ⟨hn, ?_⟩
    cases htag : Tag.ofName? name with
    | none => trivial
    | some tag =>
      simp only [htag] at hc
      cases tag with
      | item => exact ⟨hc.1, hc.2.of_twins htwin.children⟩
      | items => exact MirrorsAll.of_twins htwin.children hc
      | loop => exact ⟨hc.1, hc.2.1, MirrorsAll.of_twins htwin.children hc.2.2⟩
      | document => exact hc
      | writer => exact hc
      | nop => trivial

theorem MirrorsAll.of_twins : ∀ {es : List Element} {ns ms : List NodeId},
    List.Forall₂ (Twin t t') ns ms → MirrorsAll outputs t ns es → MirrorsAll outputs t' ms es
  | [], ns, ms, htwins, hm => by
    rw [mirrorsAll_nil] at hm ⊢
    rw [hm] at htwins
    exact List.forall₂_nil_left_iff.mp htwins
  | e :: es, ns, ms, htwins, hm => by
    obtain ⟨n, traces, rest, rfl, hn, ht, hb, hr⟩ := mirrorsAll_cons.mp hm
    obtain ⟨n', ms', htn, htail, rfl⟩ := List.forall₂_cons_left_iff.mp htwins
    obtain ⟨traces', rest', rfl, htt, htr⟩ := forall₂_append htail
    refine mirrorsAll_cons.mpr ⟨n', traces', rest', rfl, Mirrors.of_twins htn hn, fun m' hm' => ?_,
      fun m' hm' => ?_, MirrorsAll.of_twins htr hr⟩
    · obtain ⟨m, hm, htwin⟩ := exists_of_forall₂ htt hm'
      have := ht m hm
      unfold IsTrace at this ⊢
      rw [IsCopy.of_twins htn htwin, htn.name, htwin.name]
      exact this
    · obtain ⟨tail, rfl⟩ := List.head?_eq_some_iff.mp hm'
      obtain ⟨m, rest, htwin, -, rfl⟩ := List.forall₂_cons_right_iff.mp htr
      rw [IsCopy.of_twins htn htwin]
      exact hb m rfl

end

end Stencil.Meaning
