/-
  Fields that are written where they stand.

  The value of such a field comes from the records, or it is the text that the field declares.  Putting the
  field into a sink in which nothing waits writes the bytes that its element says, behind the others
  (`setData_of_filled`), and the node of the field stands for its element as before (`filled_putValue`).
-/
import Stencil.Proofs.Meaning.Mirrors
import Stencil.Proofs.Walk.Writer

set_option autoImplicit false

namespace Stencil.Meaning

open Stencil.Tree (Under Added)
open Stencil.Walk (putValue added_putValue)

variable {outputs : Bool} {t t' : Tree} {n m p x : NodeId} {e : Element} {o : Options} {read : FileReader} {value : String}

/-! ## Simple fields -/

/-- What a simple field declares. -/
structure Simple (e : Element) : Prop where
  offset : e.attr? "offset" = none
  eval : e.attr? "eval" = none
  xbytes : e.attr? "xbytes" = none
  children : e.children = [] ∨ ∃ d, e.children = [d] ∧ d.name = "default-value" ∧ d.children = []
    ∧ Field.Origin.ofName (d.attr? "type") = .literal

theorem simple_of_simpleField (h : simpleField e = true) : Simple e := by
  unfold simpleField at h
  rw [Bool.and_eq_true, List.all_eq_true] at h
  obtain ⟨hattrs, hchildren⟩ := h
  have hnone : ∀ name ∈ ["offset", "eval", "xbytes"], e.attr? name = none :=
    fun name hname => Option.isNone_iff_eq_none.mp (hattrs name hname)
  refine ⟨hnone _ (by simp), hnone _ (by simp), hnone _ (by simp), ?_⟩
  cases hcs : e.children with
  | nil => exact .inl rfl
  | cons d ds =>
    rw [hcs] at hchildren
    cases ds with
    | nil =>
      simp only [Bool.and_eq_true, beq_iff_eq, List.isEmpty_iff] at hchildren
      exact .inr ⟨d, rfl, hchildren.1.1, hchildren.1.2, hchildren.2⟩
    | cons => cases hchildren

/-- The bytes of a value depend on what the field declares, if its width is not computed. -/
theorem layout_congr (hattrs : (t.node n).attrs = (t'.node m).attrs) (hx : t.attr? n "xbytes" = none) :
    Field.layout t n value = Field.layout t' m value := by
  have hattr : ∀ name, t.attr? n name = t'.attr? m name := by
    intro name
    unfold Tree.attr?
    rw [hattrs]
  have hwidth : Field.width? t n = Field.width? t' m := by
    unfold Field.width?
    rw [← hattr "bytes", ← hattr "xbytes", hx]
    cases t.attr? n "bytes" <;> rfl
  unfold Field.layout Field.padding
  rw [hwidth, hattr, hattr, hattr, hattr]

/-! ## Filling a field -/

/-- The `value` child of a field stands first, and behind it what the field declares. -/
def Filled (t : Tree) (n : NodeId) (value : String) (cs : List Element) : Prop :=
  ∃ v ds, t.children n = v :: ds ∧ IsValue t v ∧ t.text v = value ∧ List.Forall₂ (IsLeaf t) ds cs

theorem Filled.mirrorsField {cs : List Element} (h : Filled t n value cs) : MirrorsField t (t.children n) cs := by
  obtain ⟨v, ds, hns, hv, -, hds⟩ := h
  refine ⟨[v], ds, hns, Nat.le_refl _, fun x hx => ?_, hds⟩
  rw [List.mem_singleton.mp hx]
  exact hv

/-- The `value` child of a field is the one that a visit has left, if one has. -/
theorem child?_value {vs ds : List NodeId} (hns : t.children n = vs ++ ds) (hvs : ∀ v ∈ vs, IsValue t v)
    (hds : ∀ d ∈ ds, t.name d ≠ "value") : t.child? n "value" = vs.head? := by
  unfold Tree.child?
  rw [hns]
  cases vs with
  | cons v vs =>
    rw [List.cons_append, List.find?_cons_of_pos (by rw [(hvs v List.mem_cons_self).name]; rfl)]
    rfl
  | nil =>
    rw [List.nil_append, List.head?_nil, List.find?_eq_none]
    exact fun d hd h => hds d hd (eq_of_beq h)

/-- A child of a node gets another text, and what stood below it stands there no more. -/
theorem beneath_setValue {v : NodeId} (hwf : t.WellFormed) (hv : t.parent? v = some n) (value : String) :
    Beneath t n (t.setValue v value) := by
  have hnode : ∀ x, ¬ Under t v x → (t.setValue v value).node x = t.node x := by
    intro x hx
    rw [hwf.node_setValue, if_neg fun hp => hx (Tree.under_of_parent hp), if_neg]
    rintro ⟨rfl, -⟩
    exact hx .self
  have hout : ∀ x, ¬ Under t n x ∨ x = n → ¬ Under t v x := by
    rintro x (hx | rfl)
    · exact fun hu => hx ((Tree.under_of_parent hv).trans hu)
    · exact hwf.not_under_parent hv
  have hself := hnode n (hout n (.inr rfl))
  refine ⟨hwf.setValue v value, fun x hx _ => (Tree.live_setValue value).mpr hx, fun x _ hx => ?_,
    fun x _ hx => outline_of_node (hnode x (hout x (.inl hx))), ?_, ?_, ?_⟩
  · exact congrArg Node.parent (hnode x (hout x hx))
  · exact congrArg Node.name hself
  · rw [hself]
  · unfold Tree.computed
    rw [hself]

/-- Where nothing stands below a node that gets another text, no other node changes. -/
theorem node_setValue_of_leaf {v : NodeId} (hwf : t.WellFormed) (hleaf : t.children v = []) (hx : x ≠ v) :
    (t.setValue v value).node x = t.node x := by
  have hno : t.parent? x ≠ some v := by
    intro hp
    have hmem := hwf.mem_children.mpr hp
    rw [hleaf] at hmem
    cases hmem
  rw [hwf.node_setValue, if_neg hno, if_neg fun h => hx h.1]

/-- The value that is put into a field. -/
theorem isValue_of_added {v : NodeId} {ns : List NodeId}
    (hadd : Added t n ns { Node.unused with name := "value", text := value } v t') :
    IsValue t' v ∧ t'.text v = value := by
  refine ⟨⟨?_, ?_, ?_⟩, ?_⟩
  · unfold Tree.name
    rw [hadd.self]
  · rw [hadd.self]
    rfl
  · unfold Tree.children
    rw [hadd.self]
    rfl
  · unfold Tree.text
    rw [hadd.self]

/-- The value of a field, when it is another text. -/
theorem isValue_setValue {v : NodeId} (hwf : t.WellFormed) (hl : t.Live v) (hv : IsValue t v) (value : String) :
    IsValue (t.setValue v value) v ∧ (t.setValue v value).text v = value := by
  have hself : (t.setValue v value).node v = { t.node v with children := [], text := value } := by
    rw [hwf.node_setValue, if_neg fun h => hwf.parent_ne h rfl, if_pos ⟨rfl, hl.1⟩]
  refine ⟨⟨?_, ?_, ?_⟩, ?_⟩
  · unfold Tree.name
    rw [hself]
    exact hv.name
  · rw [hself]
    exact hv.attrs
  · unfold Tree.children
    rw [hself]
  · unfold Tree.text
    rw [hself]

/-- A field without a value gets one, in front of what it declares. -/
theorem filled_of_added {v : NodeId} {ds : List NodeId} {cs : List Element} (hwf : t.WellFormed)
    (hadd : Added t n (v :: t.children n) { Node.unused with name := "value", text := value } v t')
    (hns : t.children n = ds) (hds : List.Forall₂ (IsLeaf t) ds cs) : Filled t' n value cs := by
  obtain ⟨hv, htext⟩ := isValue_of_added hadd
  refine ⟨v, ds, hadd.children.trans (by rw [hns]), hv, htext, forall₂_isLeaf_congr hds fun d hd => ?_⟩
  have hd := hwf.mem_children.mp (hns ▸ hd)
  exact outline_of_node (hadd.node d (hwf.live_of_parent hd).1 fun h => hwf.parent_ne hd h.symm)

/-- The value of a field is replaced by another one. -/
theorem filled_setValue {v : NodeId} {ds : List NodeId} {cs : List Element} (hwf : t.WellFormed)
    (hns : t.children n = v :: ds) (hv : IsValue t v) (hds : List.Forall₂ (IsLeaf t) ds cs) (value : String) :
    Filled (t.setValue v value) n value cs := by
  have hp : t.parent? v = some n := hwf.mem_children.mp (hns ▸ List.mem_cons_self)
  obtain ⟨hv', htext⟩ := isValue_setValue hwf (hwf.live_of_parent hp).1 hv value
  refine ⟨v, ds, ?_, hv', htext, forall₂_isLeaf_congr hds fun d hd => ?_⟩
  · unfold Tree.children
    rw [node_setValue_of_leaf hwf hv.children (hwf.parent_ne hp)]
    exact hns
  · refine outline_of_node (node_setValue_of_leaf hwf hv.children ?_)
    rintro rfl
    exact (List.nodup_cons.mp (hns ▸ hwf.children_nodup n)).1 hd

theorem filled_putValue (hwf : t.WellFormed) (hp : t.parent? n = some p) (hname : t.name n = "item")
    (hm : Mirrors outputs t n e) (value : String) :
    Beneath t n (putValue t n value) ∧ Filled (putValue t n value) n value e.children := by
  obtain ⟨hen, hattrs, hsimple, vs, ds, hns, hlen, hvs, hds⟩ := (mirrors_item hname).mp hm
  have hcs : ∀ c ∈ e.children, c.name ≠ "value" := by
    intro c hc
    rcases (simple_of_simpleField hsimple).children with h | ⟨d, h, hd, -⟩
    · rw [h] at hc
      cases hc
    · rw [h, List.mem_singleton] at hc
      rw [hc, hd]
      decide
  have hchild := child?_value hns hvs fun d hd => by
    obtain ⟨c, hc, hleaf⟩ := exists_of_forall₂ (List.Forall₂.flip hds) hd
    rw [hleaf.name]
    exact hcs c hc
  cases vs with
  | nil =>
    have hl := (hwf.live_of_parent hp).1
    obtain ⟨v, hadd⟩ := added_putValue value hwf hl hchild
    exact ⟨.of_added hl hadd, filled_of_added hwf hadd hns hds⟩
  | cons v vs =>
    -- there is no second one
    obtain rfl : vs = [] := List.length_eq_zero_iff.mp (Nat.le_zero.mp (Nat.le_of_succ_le_succ hlen))
    have hput : putValue t n value = t.setValue v value := by
      unfold putValue
      simp only [hchild, List.head?_cons]
    rw [hput]
    have hv : t.parent? v = some n := hwf.mem_children.mp (hns ▸ List.mem_cons_self)
    exact ⟨beneath_setValue hwf hv value, filled_setValue hwf hns (hvs v List.mem_cons_self) hds value⟩

/-- What is kept with a field does not matter for what it is filled with. -/
theorem Filled.modifyComputed {cs : List Element} {g : Computed → Computed} (hwf : t.WellFormed)
    (h : Filled t n value cs) : Filled (t.modifyComputed n g) n value cs := by
  obtain ⟨v, ds, hns, hv, hvalue, hds⟩ := h
  have hne : ∀ x ∈ v :: ds, (t.modifyComputed n g).node x = t.node x := by
    intro x hx
    rw [← hns] at hx
    exact Tree.node_modify_of_ne (hwf.parent_ne (hwf.mem_children.mp hx))
  have hv' := hne v List.mem_cons_self
  refine ⟨v, ds, (Tree.children_modifyComputed g).trans hns, hv.congr (outline_of_node hv'), ?_,
    forall₂_isLeaf_congr hds fun d hd => outline_of_node (hne d (List.mem_cons_of_mem _ hd))⟩
  unfold Tree.text
  rw [hv']
  exact hvalue

/-- A field that is filled, and with which something is kept, stands for its element as before. -/
theorem patched_putValue {g : Computed → Computed} (hwf : t.WellFormed) (hp : t.parent? n = some p)
    (hname : t.name n = "item") (hplaced : t.name p = "item" → t.parent? p = none) (hm : Mirrors outputs t n e)
    (hg : ∀ c, (g c).repeatId = c.repeatId) : Patched outputs t n ((putValue t n value).modifyComputed n g) := by
  have hb := (filled_putValue hwf hp hname hm value).1
  have hb' : Beneath t n ((putValue t n value).modifyComputed n g) := hb.trans hwf (.modifyComputed hb.wellFormed hg)
  refine ⟨hb', fun q hq => ?_, fun e' hm' => ?_⟩
  · rw [hp] at hq
    cases hq
    exact hplaced
  · have hf := (filled_putValue hwf hp hname hm' value).2.modifyComputed (g := g) hb.wellFormed
    obtain ⟨hen, hattrs, hsimple, -⟩ := (mirrors_item hname).mp hm'
    exact (mirrors_item (hb'.name.trans hname)).mpr ⟨hen, hb'.attrs.trans hattrs, hsimple, hf.mirrorsField⟩

/-! ## The bytes of a field -/

section

variable {space : Workspace}

theorem evaluate_literal (hleaf : space.tree.children m = [])
    (htype : Field.Origin.ofName (space.tree.attr? m "type") = .literal) :
    Field.evaluate o m n space = .ok (space.tree.text m) space := by
  rw [Field.evaluate, Action.get_bind]
  simp only [htype, Tree.stringValue_of_leaf hleaf]
  rfl

/-- The value of a field is the one from the records, or the one that it declares. -/
theorem value_of_filled (hs : Simple e) (hf : Filled space.tree n value e.children) :
    Field.value o read n space
      = .ok (if value.isEmpty then (e.children.head?.map Element.text).getD "" else value) space := by
  obtain ⟨v, ds, hns, hv, rfl, hds⟩ := hf
  have hvalue : Field.takeChild o read n "" v space = .ok (space.tree.text v) space := by
    rw [Field.takeChild, Action.get_bind]
    simp only [hv.name]
    refine evaluate_literal hv.children ?_
    unfold Tree.attr?
    rw [hv.attrs]
    rfl
  rw [Field.value, Action.get_bind, hns, List.foldlM_cons, Action.bind_of_ok hvalue]
  rcases hs.children with h | ⟨c, h, hcname, -, hctype⟩
  · rw [h] at hds ⊢
    cases hds
    by_cases hempty : (space.tree.text v).isEmpty = true
    · rw [if_pos hempty, String.isEmpty_iff.mp hempty]
      rfl
    · rw [if_neg hempty]
      rfl
  · rw [h] at hds ⊢
    obtain ⟨d, ds', hd, hnil, rfl⟩ := List.forall₂_cons_right_iff.mp hds
    obtain rfl := List.forall₂_nil_right_iff.mp hnil
    have hdefault : Field.takeChild o read n (space.tree.text v) d space
        = .ok (if (space.tree.text v).isEmpty then c.text else space.tree.text v) space := by
      rw [Field.takeChild, Action.get_bind]
      simp only [hd.name, hcname]
      split
      · rw [← hd.text]
        refine evaluate_literal hd.children ?_
        unfold Tree.attr?
        rw [hd.attrs]
        exact hctype
      · rfl
    rw [List.foldlM_cons, Action.bind_of_ok hdefault]
    rfl

end

/-- What is written for a field that has been filled. -/
theorem prepare_of_filled {space : Workspace} (read : FileReader) (hs : Simple e)
    (hattrs : (space.tree.node n).attrs = e.attrs)
    (hf : Filled space.tree n value e.children) :
    ∃ space' g, (∀ c, (g c : Computed).repeatId = c.repeatId) ∧ space'.tree = space.tree.modifyComputed n g
      ∧ ((∃ l, fieldBytes e value = .ok l.bytes ∧ Field.prepare o read n none space = .ok ⟨none, l⟩ space')
        ∨ ∃ err, fieldBytes e value = .error err ∧ Field.prepare o read n none space = .error err space') := by
  generalize htext : (if value.isEmpty then (e.children.head?.map Element.text).getD "" else value) = text
  have hvalue : Field.value o read n space = _ := value_of_filled hs hf
  rw [htext] at hvalue
  have hnode : ∀ g, ((space.tree.modifyComputed n g).node n).attrs = e.attrs := by
    intro g
    unfold Tree.modifyComputed
    rw [Tree.node_modify]
    split <;> exact hattrs
  have hattr : ∀ g name, (space.tree.modifyComputed n g).attr? n name = e.attr? name := by
    intro g name
    unfold Tree.attr? Element.attr?
    rw [hnode]
  refine ⟨{ space with tree := space.tree.modifyComputed n fun c => { c with result := some text } },
    fun c => { c with result := some text }, fun _ => rfl, rfl, ?_⟩
  have hlayout : Field.layout (space.tree.modifyComputed n fun c => { c with result := some text }) n text
      = Field.layout (Tree.ofElement e) 0 text := by
    refine layout_congr ?_ ((hattr _ _).trans hs.xbytes)
    rw [hnode]
    exact (congrArg Node.attrs (Tree.grafted_ofElement e).holds.content).symm
  unfold fieldBytes Field.prepare
  rw [Action.bind_of_ok hvalue, Workspace.modifyTree, Action.modify_bind, Action.get_bind]
  simp only [Field.offset?, hattr, hs.offset, hlayout, htext]
  cases Field.layout (Tree.ofElement e) 0 text with
  | ok l => exact .inl ⟨l, rfl, rfl⟩
  | error err => exact .inr ⟨err, rfl, rfl⟩

/-- What is kept with a node may be changed twice. -/
theorem modifyComputed_modifyComputed (g g' : Computed → Computed) :
    (t.modifyComputed n g).modifyComputed n g' = t.modifyComputed n fun c => g' (g c) := by
  unfold Tree.modifyComputed Tree.modify
  congr 1
  refine Array.ext (by simp) fun i hi hi' => ?_
  simp only [Array.getElem_modify]
  split <;> rfl

theorem modifyComputed_id : t.modifyComputed n id = t := by
  obtain ⟨nodes, free⟩ := t
  simp only [Tree.modifyComputed, Tree.modify, Tree.mk.injEq, and_true]
  exact Array.ext (by simp) fun i hi hi' => by simp [Array.getElem_modify]

/-- Keeping a width with a field changes nothing else. -/
theorem record_ok (l : Field.Layout) (space : Workspace) :
    ∃ space' g, Field.record n l space = .ok () space' ∧ (∀ c, (g c : Computed).repeatId = c.repeatId)
      ∧ space'.tree = space.tree.modifyComputed n g := by
  cases hr : l.recorded with
  | some k =>
    refine ⟨{ space with tree := space.tree.modifyComputed n fun c => { c with resultBytes := some k } },
      fun c => { c with resultBytes := some k }, ?_, fun _ => rfl, rfl⟩
    simp only [Field.record, hr]
    rfl
  | none =>
    refine ⟨space, id, ?_, fun _ => rfl, modifyComputed_id.symm⟩
    simp only [Field.record, hr]
    rfl

/-- Writing a field that has been filled into a sink: its bytes are put behind the others, or it has none. -/
theorem setData_of_filled {j : Job} (files : Files) (hs : Simple e)
    (hattrs : (j.space.tree.node n).attrs = e.attrs) (hf : Filled j.space.tree n value e.children) :
    (∃ bytes space g, fieldBytes e value = .ok bytes
        ∧ Job.setData o files n j = .ok () ⟨space, j.sink.flush.emit none bytes⟩
        ∧ (∀ c, (g c : Computed).repeatId = c.repeatId) ∧ space.tree = j.space.tree.modifyComputed n g)
      ∨ ∃ err err' j', fieldBytes e value = .error err ∧ Job.setData o files n j = .error err' j' := by
  have hlazy : j.space.tree.attr? n "eval" ≠ some "lazy" := by
    have heval : j.space.tree.attr? n "eval" = none := by
      rw [← hs.eval]
      unfold Tree.attr? Element.attr?
      rw [hattrs]
    rw [heval]
    exact (Option.some_ne_none _).symm
  obtain ⟨space, g, hg, htree, hprepared⟩ :=
    prepare_of_filled (o := o) (j.sink.flush.reader files) hs hattrs hf
  rcases hprepared with ⟨l, hbytes, hl⟩ | ⟨err, hbytes, hl⟩
  · obtain ⟨space', g', hrecord, hg', htree'⟩ := record_ok (n := n) l space
    refine .inl ⟨l.bytes, space', fun c => g' (g c), hbytes, Job.setData_of_write_ok hlazy ?_, fun c => (hg' _).trans (hg c),
      ?_⟩
    · rw [Job.write, Action.locating_eq_ok, Action.get_bind,
        Action.bind_of_ok (Job.onSpace_of_ok (j := { j with sink := j.sink.flush }) hl), Job.modifySink, Action.modify_bind]
      exact Job.onSpace_of_ok hrecord
    · rw [htree', htree, modifyComputed_modifyComputed]
  · have hwrite : Job.write o files n none { j with sink := j.sink.flush }
        = .error (err.locate (space.tree.describe n)) ⟨space, j.sink.flush⟩ := by
      rw [Job.write, Action.locating, Action.get_bind,
        Action.bind_of_error (Job.onSpace_of_error (j := { j with sink := j.sink.flush }) hl)]
    exact .inr ⟨err, _, _, hbytes, Job.setData_of_write_error hwrite⟩

end Stencil.Meaning
