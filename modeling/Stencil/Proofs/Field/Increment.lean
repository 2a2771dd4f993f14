/-
  Numbers that grow.

  An element of the type `auto-increment` holds an integer, which it gives out as it stands; from then on it holds the
  next one.

    1. What it holds counts for an integer; no text counts for zero (`Counts`).  The integer is given out and the next
       one is kept (`evaluate_of_grows`), unless it is the last one: then nothing is given out, and the element keeps
       what it holds (`evaluate_of_last`).
    2. So a field that declares such an element, and has no value of its own, is written as the integer that the
       element holds (`Increments.setData`).
    3. What a walk leaves alone, and what a loop copies, holds the same integer (`Increments.congr`,
       `Increments.of_twin`).
-/
import Stencil.Proofs.Field.Decimal
import Stencil.Proofs.Field.Writing
import Stencil.Proofs.Import.Inlining
import Stencil.Proofs.Meaning.Fields
import Stencil.Proofs.Tree.Loading

set_option autoImplicit false

namespace Stencil

open Stencil.Meaning (IsValue outline)
open Stencil.Text (Bounds Denotes boundedInt trim)
open Stencil.Tree (Under)

variable {t t' : Tree} {x x' d p : NodeId} {m : Int} {text : String} {o : Options} {read : FileReader}
  {space space' : Workspace}

/-! ## Integers that are held -/

namespace Field

/-- A text is the numeral of an integer of sixty-four bits, with blanks around it or without. -/
def Tells (text : String) (m : Int) : Prop := Denotes text m ∧ Bounds.int64.Holds m

theorem boundedInt_iff_tells : boundedInt .int64 (trim text) = .ok m ↔ Tells text m := by
  rw [Text.boundedInt_eq_ok_iff (by decide) (by decide)]
  exact and_congr_left fun _ => ⟨Text.denotes_of_trim, Text.trim_of_denotes⟩

theorem Tells.unique {m' : Int} (h : Tells text m) (h' : Tells text m') : m = m' :=
  Except.ok.inj ((boundedInt_iff_tells.mpr h).symm.trans (boundedInt_iff_tells.mpr h'))

/-- The numeral of an integer. -/
theorem tells_toString (h : Bounds.int64.Holds m) : Tells (toString m) m := by
  have hn := Text.boundedInt_toString (by decide) h
  refine ⟨⟨[], (toString m).toList, [], by simp, fun c hc => ?_, ?_⟩, h⟩
  · cases hc
  · exact ((Text.boundedInt_eq_ok_iff (by decide) (by decide)).mp hn).1

theorem Tells.ne_empty (h : Tells text m) : text ≠ "" := by
  rintro rfl
  obtain ⟨⟨before, digits, after, htext, -, hn⟩, -⟩ := h
  have hnil : before ++ digits ++ after = [] := htext.symm
  exact hn.not_blank.1 (List.append_eq_nil_iff.mp (List.append_eq_nil_iff.mp hnil).1).2

/-- What an element holds counts for an integer; no text counts for zero. -/
def Counts (text : String) (m : Int) : Prop := text = "" ∧ m = 0 ∨ Tells text m

theorem Counts.holds (h : Counts text m) : Bounds.int64.Holds m := by
  rcases h with ⟨-, rfl⟩ | h
  · decide
  · exact h.2

/-- An element that holds an integer that grows. -/
structure Grows (t : Tree) (d : NodeId) (m : Int) : Prop where
  type : t.attr? d "type" = some "auto-increment"
  counts : Counts (t.stringValue d) m

/-- Below the last one, the integer is given out, and the element holds the next one. -/
theorem evaluate_of_grows (h : Grows space.tree d m) (hlt : m < lastCount) :
    ∃ text, Tells text m ∧ evaluate o d x space
      = .ok text { space with tree := space.tree.setValue d (toString (m + 1)) } := by
  rw [evaluate, Action.get_bind]
  simp only [h.type, Origin.ofName]
  unfold takeIncrement
  rcases h.counts with ⟨htext, rfl⟩ | htells
  · rw [htext]
    exact ⟨"0", tells_toString (m := 0) (by decide), rfl⟩
  · refine ⟨_, htells, ?_⟩
    rw [if_neg fun hempty => htells.ne_empty (String.isEmpty_iff.mp hempty), boundedInt_iff_tells.mpr htells]
    simp only [if_pos hlt]
    rfl

/-- The last one is not given out, and the element keeps it. -/
theorem evaluate_of_last (h : Grows space.tree d lastCount) :
    evaluate o d x space = .error (.of .incrementOverflow) space := by
  have htells : Tells (space.tree.stringValue d) lastCount :=
    h.counts.resolve_left fun hzero => absurd hzero.2 (by decide)
  rw [evaluate, Action.get_bind]
  simp only [h.type, Origin.ofName]
  unfold takeIncrement
  rw [if_neg fun hempty => htells.ne_empty (String.isEmpty_iff.mp hempty), boundedInt_iff_tells.mpr htells]
  simp only [if_neg (Int.lt_irrefl lastCount)]
  rfl

/-- What is given out is the integer that is held, and not the last one. -/
theorem evaluate_eq_ok (hd : Grows space.tree d m) (h : evaluate o d x space = .ok text space') :
    m < lastCount ∧ Tells text m ∧ space' = { space with tree := space.tree.setValue d (toString (m + 1)) } := by
  have hlt : m < lastCount := by
    refine lt_of_le_of_ne hd.counts.holds.2 ?_
    rintro rfl
    rw [evaluate_of_last hd] at h
    cases h
  obtain ⟨text', htells, hgiven⟩ := evaluate_of_grows (o := o) (x := x) hd hlt
  rw [hgiven] at h
  cases h
  exact ⟨hlt, htells, rfl⟩

/-- What gives out anything holds an integer. -/
theorem exists_grows (htype : space.tree.attr? d "type" = some "auto-increment")
    (h : evaluate o d x space = .ok text space') : ∃ m, Grows space.tree d m := by
  rw [evaluate, Action.get_bind_eq_ok] at h
  simp only [htype, Origin.ofName] at h
  unfold takeIncrement at h
  split at h
  · rename_i hempty
    exact ⟨0, htype, .inl ⟨String.isEmpty_iff.mp hempty, rfl⟩⟩
  · cases hm : boundedInt .int64 (trim (space.tree.stringValue d)) with
    | error fault =>
      simp only [hm] at h
      exact (Action.fail_eq_ok.mp h).elim
    | ok m => exact ⟨m, htype, .inr (boundedInt_iff_tells.mp hm)⟩

/-- The element holds the numeral of the next integer. -/
theorem Grows.tells_setValue (h : Grows t d m) (hwf : t.WellFormed) (hl : t.Live d) (hlt : m < lastCount) :
    Tells ((t.setValue d (toString (m + 1))).stringValue d) (m + 1) := by
  have hholds : Bounds.int64.Holds (m + 1) := ⟨Int.le_trans h.counts.holds.1 (Int.le_add_one (Int.le_refl m)), hlt⟩
  rw [Tree.stringValue_of_leaf (by rw [hwf.children_setValue, if_pos rfl]), Tree.text, hwf.node_setValue,
    if_neg fun hp => hwf.parent_ne hp rfl, if_pos ⟨rfl, hl.1⟩]
  exact tells_toString hholds

theorem Grows.setValue (h : Grows t d m) (hwf : t.WellFormed) (hl : t.Live d) (hlt : m < lastCount) :
    Grows (t.setValue d (toString (m + 1))) d (m + 1) := by
  refine ⟨?_, .inr (h.tells_setValue hwf hl hlt)⟩
  rw [(Tree.Retexted.setValue _).attr?]
  exact h.type

/-! ## Fields that count -/

/-- A field whose text, if it has no value, is the integer that the only element in it holds.  A visit may have left
    a value. -/
structure Increments (t : Tree) (x : NodeId) (m : Int) : Prop where
  eval : t.attr? x "eval" = none
  parts : ∃ vs d, t.children x = vs ++ [d] ∧ vs.length ≤ 1 ∧ (∀ v ∈ vs, IsValue t v) ∧ t.name d = "default-value"
    ∧ Grows t d m

/-- The field as it is declared. -/
theorem Increments.of_declared (heval : t.attr? x "eval" = none) (hns : t.children x = [d])
    (hname : t.name d = "default-value") (hd : Grows t d m) : Increments t x m :=
  ⟨heval, [], d, hns, Nat.zero_le 1, fun _ hv => absurd hv List.not_mem_nil, hname, hd⟩

/-- The field has been visited, and there was no value for it, so that its default `d` counts. -/
def Vacant (t : Tree) (x d : NodeId) : Prop :=
  t.name d = "default-value" ∧ ∃ v, t.children x = [v, d] ∧ IsValue t v ∧ t.text v = ""

theorem stringValue_of_outlines (hwf : t.WellFormed) (hwf' : t'.WellFormed)
    (h : ∀ y, Under t d y → outline t' y = outline t y) : t'.stringValue d = t.stringValue d := by
  unfold Tree.stringValue
  rw [Tree.descendants_congr hwf hwf' fun y hy => Meaning.children_of_outline (h y hy),
    Meaning.text_of_outline (h d .self)]
  exact congrArg (fun l => String.join (t.text d :: l)) (List.map_congr_left fun y hy =>
    Meaning.text_of_outline (h y (hwf.mem_descendants.mp hy).1))

theorem Grows.congr (h : Grows t d m) (hwf : t.WellFormed) (hwf' : t'.WellFormed)
    (ho : ∀ y, Under t d y → outline t' y = outline t y) : Grows t' d m := by
  refine ⟨?_, ?_⟩
  · unfold Tree.attr?
    rw [Meaning.attrs_of_outline (ho d .self)]
    exact h.type
  · rw [stringValue_of_outlines hwf hwf' ho]
    exact h.counts

/-- What is left alone counts from where it was. -/
theorem Increments.congr (h : Increments t x m) (hwf : t.WellFormed) (hwf' : t'.WellFormed)
    (ho : ∀ y, Under t x y → outline t' y = outline t y) : Increments t' x m := by
  obtain ⟨vs, d, hns, hlen, hvs, hdname, hd⟩ := h.parts
  have hbelow : ∀ c ∈ t.children x, Under t x c := fun c hc => Tree.under_of_parent (hwf.mem_children.mp hc)
  rw [hns] at hbelow
  have hxd := hbelow d (List.mem_append_right _ List.mem_cons_self)
  refine ⟨?_, vs, d, (Meaning.children_of_outline (ho x .self)).trans hns, hlen, fun v hv => ?_,
    (Meaning.name_of_outline (ho d hxd)).trans hdname, hd.congr hwf hwf' fun y hy => ho y (hxd.trans hy)⟩
  · unfold Tree.attr?
    rw [Meaning.attrs_of_outline (ho x .self)]
    exact h.eval
  · exact (hvs v hv).congr (ho v (hbelow v (List.mem_append_left _ hv)))

/-- A copy counts from where the field is. -/
theorem Increments.of_twin (h : Increments t x m) (hwf : t.WellFormed) (hwf' : t'.WellFormed)
    (htwin : Meaning.Twin t t' x x') : Increments t' x' m := by
  obtain ⟨vs, d, hns, hlen, hvs, hdname, hd⟩ := h.parts
  have hchildren := htwin.children
  rw [hns] at hchildren
  obtain ⟨vs', ds', hns', htv, hds⟩ := Meaning.forall₂_append hchildren
  obtain ⟨d', ds, htd, hnil, rfl⟩ := List.forall₂_cons_left_iff.mp hds
  obtain rfl := List.forall₂_nil_left_iff.mp hnil
  have hattr : ∀ {y y'}, Meaning.Twin t t' y y' → ∀ name, t'.attr? y' name = t.attr? y name := fun ht name => by
    unfold Tree.attr?
    rw [ht.attrs]
  refine ⟨(hattr htwin _).trans h.eval, vs', d', hns', htv.length_eq ▸ hlen, fun v' hv' => ?_, htd.name.trans hdname,
    (hattr htd _).trans hd.type, ?_⟩
  · obtain ⟨v, hv, ht⟩ := Meaning.exists_of_forall₂ htv hv'
    exact (hvs v hv).of_twin ht
  · obtain ⟨e, he, he'⟩ := htd
    rw [he'.stringValue hwf', ← he.stringValue hwf]
    exact hd.counts

/-- A visit to the field for which there is no value. -/
theorem Increments.putValue (h : Increments t x m) (hwf : t.WellFormed) (hp : t.parent? x = some p) :
    ∃ d, Vacant (Walk.putValue t x "") x d ∧ Grows (Walk.putValue t x "") d m := by
  obtain ⟨vs, d, hns, hlen, hvs, hdname, hd⟩ := h.parts
  have hl := (hwf.live_of_parent hp).1
  have hchild := Meaning.child?_value hns hvs fun c hc => by
    rw [List.mem_singleton.mp hc, hdname]
    decide
  have hpd : t.parent? d = some x := hwf.mem_children.mp (by rw [hns]; exact List.mem_append_right _ List.mem_cons_self)
  have hld := (hwf.live_of_parent hpd).1
  -- nothing changes in what is below the element
  have hnot : ∀ y, Under t d y → y ≠ x := by
    rintro y hy rfl
    exact hwf.not_under_parent hpd hy
  cases vs with
  | nil =>
    obtain ⟨v, hadd⟩ := Walk.added_putValue "" hwf hl hchild
    obtain ⟨hv, htext⟩ := Meaning.isValue_of_added hadd
    have ho : ∀ y, Under t d y → outline (Walk.putValue t x "") y = outline t y := fun y hy =>
      Meaning.outline_of_node (hadd.node y (hwf.live_of_under hld hy) (hnot y hy))
    have hname : (Walk.putValue t x "").name d = "default-value" :=
      (Meaning.name_of_outline (ho d .self)).trans hdname
    exact ⟨d, ⟨hname, v, hadd.children.trans (by rw [hns]; rfl), hv, htext⟩, hd.congr hwf hadd.wellFormed ho⟩
  | cons v vs =>
    obtain rfl : vs = [] := List.length_eq_zero_iff.mp (Nat.le_zero.mp (Nat.le_of_succ_le_succ hlen))
    have hput : Walk.putValue t x "" = t.setValue v "" := by
      unfold Walk.putValue
      simp only [hchild, List.head?_cons]
    have hisv := hvs v List.mem_cons_self
    have hpv : t.parent? v = some x := hwf.mem_children.mp (hns ▸ List.mem_cons_self)
    have hne : v ≠ d := by
      rintro rfl
      exact absurd (hns ▸ hwf.children_nodup x) (by simp)
    rw [hput]
    obtain ⟨hv, htext⟩ := Meaning.isValue_setValue hwf (hwf.live_of_parent hpv).1 hisv ""
    have ho : ∀ y, Under t d y → outline (t.setValue v "") y = outline t y := fun y hy => by
      refine Meaning.outline_of_node (Meaning.node_setValue_of_leaf hwf hisv.children ?_)
      rintro rfl
      exact hne (hwf.siblings_disjoint hpv hpd .self hy)
    have hname := (Meaning.name_of_outline (ho d .self)).trans hdname
    refine ⟨d, ⟨hname, v, ?_, hv, htext⟩, hd.congr hwf (hwf.setValue v "") ho⟩
    rw [hwf.children_setValue, if_neg (hwf.parent_ne hpv)]
    exact hns

/-- The text of the field is the one that the element gives out. -/
theorem value_of_vacant (h : Vacant space.tree x d) : value o read x space = evaluate o d x space := by
  obtain ⟨hdname, v, hns, hv, htext⟩ := h
  have hvalue : takeChild o read x "" v space = .ok "" space := by
    rw [takeChild, Action.get_bind]
    simp only [hv.name]
    rw [← htext]
    refine Meaning.evaluate_literal hv.children ?_
    unfold Tree.attr?
    rw [hv.attrs]
    rfl
  have hdefault : takeChild o read x "" d space = evaluate o d x space := by
    rw [takeChild, Action.get_bind]
    simp only [hdname]
    rfl
  rw [value, Action.get_bind, hns, List.foldlM_cons, Action.bind_of_ok hvalue, List.foldlM_cons]
  cases he : evaluate o d x space with
  | ok text space' => exact Action.bind_of_ok (hdefault.trans he)
  | error e space' => exact Action.bind_of_error (hdefault.trans he)

/-- The field counts from the next integer. -/
theorem Increments.of_vacant (heval : t.attr? x "eval" = none) (h : Vacant t x d) (hd : Grows t d m)
    (hwf : t.WellFormed) (hlt : m < lastCount) : Increments (t.setValue d (toString (m + 1))) x (m + 1) := by
  obtain ⟨hdname, v, hns, hv, -⟩ := h
  have hp : ∀ c ∈ [v, d], t.parent? c = some x := fun c hc => hwf.mem_children.mp (hns ▸ hc)
  have hpd := hp d (List.mem_cons_of_mem _ List.mem_cons_self)
  have hvd : v ≠ d := by
    rintro rfl
    exact absurd (hns ▸ hwf.children_nodup x) (by simp)
  have hnode : ∀ y, t.parent? y ≠ some d → y ≠ d → (t.setValue d (toString (m + 1))).node y = t.node y :=
    fun y hy hne => by rw [hwf.node_setValue, if_neg hy, if_neg fun h => hne h.1]
  have hx : (t.setValue d (toString (m + 1))).node x = t.node x :=
    hnode x (fun hxd => hwf.not_under_parent hpd (Tree.under_of_parent hxd)) (hwf.parent_ne hpd)
  refine ⟨?_, [v], d, ?_, Nat.le_refl 1, fun y hy => ?_, ?_, hd.setValue hwf (hwf.live_of_parent hpd).1 hlt⟩
  · unfold Tree.attr?
    rw [hx]
    exact heval
  · unfold Tree.children
    rw [hx]
    exact hns
  · rw [List.mem_singleton.mp hy]
    refine hv.congr (Meaning.outline_of_node (hnode v ?_ hvd))
    rw [hp v List.mem_cons_self]
    exact fun h => hwf.parent_ne hpd (Option.some.inj h)
  · unfold Tree.name
    rw [hwf.node_setValue, if_neg fun hp => hwf.parent_ne hp rfl, if_pos ⟨rfl, (hwf.live_of_parent hpd).1.1⟩]
    exact hdname

/-- What is kept with the field when it is written does not show. -/
theorem outline_of_kept {w : Workspace} (hwf : w.tree.WellFormed) (text : String) (recorded : Option Int) :
    ((w.keepResult x text).keepWidth x recorded).tree.WellFormed
      ∧ ∀ y, outline ((w.keepResult x text).keepWidth x recorded).tree y = outline w.tree y := by
  -- a change of what is kept that leaves the mark of a loop alone
  have hstep : ∀ {t : Tree} {g : Computed → Computed}, t.WellFormed → (∀ c, (g c).repeatId = c.repeatId) →
      (t.modifyComputed x g).WellFormed ∧ ∀ y, outline (t.modifyComputed x g) y = outline t y :=
    fun hwf hg => ⟨hwf.modifyComputed x _, Meaning.outline_modifyComputed hg⟩
  obtain ⟨hwf', hkept⟩ := hstep (g := fun c => { c with result := some text }) hwf fun _ => rfl
  cases recorded with
  | none => exact ⟨hwf', hkept⟩
  | some n =>
    obtain ⟨hwf'', hwidth⟩ := hstep (g := fun c => { c with resultBytes := some n }) hwf' fun _ => rfl
    exact ⟨hwf'', fun y => (hwidth y).trans (hkept y)⟩

end Field

open Stencil.Field (Grows Increments Tells Vacant WorkedOut)

variable {j j' : Job} {files : Files} {u : Unit}

/-- The field is put into a sink: it is written as the integer that its element holds, and that was not the last
    one. -/
theorem Job.setData_of_vacant (hwf : j.space.tree.WellFormed) (heval : j.space.tree.attr? x "eval" = none)
    (hv : Vacant j.space.tree x d) (hd : Grows j.space.tree d m) (h : Job.setData o files x j = .ok u j') :
    ∃ text space spot l, Tells text m ∧ WorkedOut o (j.sink.flush.reader files) x none j.space text space spot l
      ∧ j'.sink = j.sink.flush.emit spot l.bytes ∧ Increments j'.space.tree x (m + 1) := by
  have hlazy : ¬ (j.space.tree.attr? x "eval" == some "lazy") = true := by
    rw [heval]
    decide
  rw [Job.setData, Action.get_bind_eq_ok, Action.get_bind_eq_ok, Job.modifySink, Action.modify_bind_eq_ok] at h
  obtain ⟨_, j₁, h₁, h⟩ := Action.bind_eq_ok.mp h
  rw [if_neg hlazy] at h
  obtain ⟨-, rfl⟩ := Action.pure_eq_ok.mp h
  obtain ⟨text, space, spot, l, hw, rfl⟩ := Job.workedOut_of_write h₁
  have hvalue := hw.value
  rw [Field.value_of_vacant hv] at hvalue
  obtain ⟨hlt, htells, rfl⟩ := Field.evaluate_eq_ok hd hvalue
  have hwf' := hwf.setValue d (toString (m + 1))
  have hnext := Increments.of_vacant heval hv hd hwf hlt
  obtain ⟨hwf'', hkept⟩ := Field.outline_of_kept (x := x) (w := { j.space with tree := _ }) hwf' text l.recorded
  exact ⟨text, _, spot, l, htells, hw, rfl, hnext.congr hwf' hwf'' fun y _ => hkept y⟩

end Stencil
