/-
  What a field keeps of the writes.

  A write keeps its text with the field.  It keeps its width too, if it has one; but a field that declares none and has no
  text is written without a width, and then the width of an earlier write stays (`resultBytes_of_writes`: the last width
  that there has been).  So the width that is kept is the number of bytes of the last write, unless that write had none
  and an earlier one left another than zero.
-/
import Stencil.Proofs.Field.Writing

set_option autoImplicit false

namespace Stencil

/-! ## Widths -/

namespace Field

variable {t : Tree} {item : NodeId} {text : String} {l : Layout}

/-- The last width among those of some writes. -/
def lastRecorded (ls : List Layout) : Option Int := (ls.filterMap Layout.recorded).getLast?

theorem lastRecorded_append (ls : List Layout) (l : Layout) :
    lastRecorded (ls ++ [l]) = l.recorded.or (lastRecorded ls) := by
  unfold lastRecorded
  cases h : l.recorded <;> simp [h]

/-- Whether nothing says how wide a field is: it declares no width, and has no text. -/
def Widthless (t : Tree) (item : NodeId) (text : String) : Prop := width? t item = .ok none ∧ text = ""

/-- A field is written without a width if nothing says how wide it is. -/
theorem layout_of_widthless (h : Widthless t item text) (hl : layout t item text = .ok l) : l = ⟨[], none⟩ := by
  obtain ⟨hwidth, rfl⟩ := h
  rcases measured_of_none hwidth hl with ⟨-, hl⟩ | ⟨hne, -⟩
  · exact hl
  · exact absurd rfl hne

/-- Otherwise the width is the number of bytes. -/
theorem recorded_of_not_widthless (h : ¬ Widthless t item text) (hpos : ∀ n, width? t item = .ok (some n) → 0 ≤ n)
    (hl : layout t item text = .ok l) : l.recorded = some (l.bytes.length : Int) := by
  cases hwidth : width? t item with
  | error e =>
    rw [layout_of_width_error hwidth] at hl
    cases hl
  | ok width =>
    cases width with
    | none =>
      rcases measured_of_none hwidth hl with ⟨hempty, -⟩ | ⟨-, hrecorded⟩
      · exact absurd ⟨hwidth, hempty⟩ h
      · exact hrecorded
    | some n =>
      obtain ⟨hrecorded, hlength⟩ := measured_of_width hwidth hl
      rw [hrecorded, hlength, Int.toNat_of_nonneg (hpos n hwidth)]

end Field

/-! ## One write -/

theorem Tree.computed_modifyComputed {t : Tree} {id : NodeId} (h : id < t.nodes.size) (f : Computed → Computed) :
    (t.modifyComputed id f).computed id = f (t.computed id) := by
  unfold Tree.computed Tree.modifyComputed
  rw [node_modify, if_pos ⟨rfl, h⟩]

namespace Workspace

variable {w : Workspace} {item : NodeId}

theorem size_keepResult (text : String) : (w.keepResult item text).tree.nodes.size = w.tree.nodes.size :=
  Tree.size_nodes_modify _ _ _

theorem size_keepWidth (recorded : Option Int) : (w.keepWidth item recorded).tree.nodes.size = w.tree.nodes.size := by
  cases recorded with
  | none => rfl
  | some n => exact Tree.size_nodes_modify _ _ _

theorem computed_keepResult (h : item < w.tree.nodes.size) (text : String) :
    (w.keepResult item text).tree.computed item = { w.tree.computed item with result := some text } :=
  Tree.computed_modifyComputed h _

theorem computed_keepWidth (h : item < w.tree.nodes.size) (recorded : Option Int) :
    (w.keepWidth item recorded).tree.computed item
      = { w.tree.computed item with resultBytes := recorded.or (w.tree.computed item).resultBytes } := by
  cases recorded with
  | none => rfl
  | some n => exact Tree.computed_modifyComputed h _

end Workspace

namespace Job

open Stencil.Field (Layout Unwritable WorkedOut lastRecorded)

variable {o : Options} {files : Files} {item : NodeId} {place spot : Option Nat} {j j₁ j₂ : Job} {w : Workspace}
  {text : String} {l : Layout} {ls : List Layout} {e : Error}

/-- What a field that has been written keeps: the text, and the width if there is one. -/
theorem computed_of_workedOut (hitem : item < j.space.tree.nodes.size)
    (hw : WorkedOut o (j.sink.reader files) item place j.space text w spot l) :
    ((w.keepResult item text).keepWidth item l.recorded).tree.computed item
      = { j.space.tree.computed item with
          result := some text, resultBytes := l.recorded.or (j.space.tree.computed item).resultBytes } := by
  have hvalue := Field.retexts_value.of_ok hw.value
  have hsize : item < w.tree.nodes.size := hvalue.size ▸ hitem
  rw [Workspace.computed_keepWidth ((Workspace.size_keepResult text).symm ▸ hsize), Workspace.computed_keepResult hsize,
    hvalue.computed]

theorem size_of_workedOut (hw : WorkedOut o (j.sink.reader files) item place j.space text w spot l) :
    ((w.keepResult item text).keepWidth item l.recorded).tree.nodes.size = j.space.tree.nodes.size := by
  rw [Workspace.size_keepWidth, Workspace.size_keepResult]
  exact (Field.retexts_value.of_ok hw.value).size

/-- A field that cannot be written keeps the width it had. -/
theorem resultBytes_of_unwritable (hu : Unwritable o (j.sink.reader files) item place j.space e w) :
    w.tree.nodes.size = j.space.tree.nodes.size
      ∧ (w.tree.computed item).resultBytes = (j.space.tree.computed item).resultBytes := by
  obtain ⟨w₁, hr, rfl | ⟨text, rfl⟩⟩ := hu.retexted
  · exact ⟨hr.size, congrArg Computed.resultBytes (hr.computed item)⟩
  · refine ⟨(Workspace.size_keepResult text).trans hr.size, ?_⟩
    rw [← hr.computed item]
    unfold Tree.computed Workspace.keepResult Tree.modifyComputed
    rw [Tree.node_modify]
    split <;> rfl

/-! ## Any writes -/

/-- Writes of a field, those that fail included, and what else goes on: it may change anything except that the field stays
    where it is, with the width that is kept with it. -/
inductive Writes (o : Options) (files : Files) (item : NodeId) : Job → List Layout → Job → Prop
  | none (j : Job) : Writes o files item j [] j
  | between {j j₁ j₂ : Job} {ls : List Layout} (before : Writes o files item j ls j₁)
    (size : j₁.space.tree.nodes.size ≤ j₂.space.tree.nodes.size)
    (same : (j₂.space.tree.computed item).resultBytes = (j₁.space.tree.computed item).resultBytes) :
    Writes o files item j ls j₂
  | failed {j j₁ j₂ : Job} {ls : List Layout} {place : Option Nat} {e : Error} (before : Writes o files item j ls j₁)
    (failed : write o files item place j₁ = .error e j₂) : Writes o files item j ls j₂
  | written {j j₁ j₂ : Job} {ls : List Layout} {place spot : Option Nat} {text : String} {w : Workspace} {l : Layout}
    (before : Writes o files item j ls j₁)
    (worked : WorkedOut o (j₁.sink.reader files) item place j₁.space text w spot l)
    (written : write o files item place j₁ = .ok () j₂) : Writes o files item j (ls ++ [l]) j₂

/-- Behind any writes of a field the width that is kept with it is the last one that there has been. -/
theorem resultBytes_of_writes (hitem : item < j.space.tree.nodes.size) (h : Writes o files item j ls j₁) :
    item < j₁.space.tree.nodes.size
      ∧ (j₁.space.tree.computed item).resultBytes = (lastRecorded ls).or (j.space.tree.computed item).resultBytes := by
  induction h with
  | none => exact ⟨hitem, rfl⟩
  | between _ size same ih => exact ⟨Nat.lt_of_lt_of_le ih.1 size, same.trans ih.2⟩
  | @failed j₁ j₂ ls place e _ failed ih =>
    obtain ⟨hin, hkept⟩ := ih
    rcases Field.unwritable_or_workedOut o (j₁.sink.reader files) item place j₁.space
      with ⟨e', w, hu⟩ | ⟨text, w, spot, l, hw⟩
    · rw [write_of_unwritable hu] at failed
      cases failed
      obtain ⟨hsize, hsame⟩ := resultBytes_of_unwritable hu
      exact ⟨hsize.symm ▸ hin, hsame.trans hkept⟩
    · rw [write_of_workedOut hw] at failed
      cases failed
  | written _ worked written ih =>
    obtain ⟨hin, hkept⟩ := ih
    rw [write_of_workedOut worked] at written
    cases written
    -- without a width of its own the last write leaves the one that was there
    refine ⟨(size_of_workedOut worked).symm ▸ hin, ?_⟩
    rw [computed_of_workedOut hin worked, Field.lastRecorded_append, Option.or_assoc, ← hkept]

/-- What is kept with a field behind a write.

    A field of which no width has been kept is written any number of times, whatever goes on in between, and once more.
    The text that is kept is that of the last write.  The width that is kept, if there is one, is the number of bytes of
    the last write exactly if that write had a width, or the last one before that had, if any, had zero. -/
theorem kept_of_last_write (hitem : item < j.space.tree.nodes.size)
    (hnew : (j.space.tree.computed item).resultBytes = none) (h : Writes o files item j ls j₁)
    (hw : WorkedOut o (j₁.sink.reader files) item place j₁.space text w spot l)
    (hpos : ∀ n, Field.width? (w.keepResult item text).tree item = .ok (some n) → 0 ≤ n) :
    ∃ j₂, write o files item place j₁ = .ok () j₂ ∧ j₂.sink = j₁.sink.emit spot l.bytes
      ∧ (j₂.space.tree.computed item).result = some text
      ∧ ((∀ n, (j₂.space.tree.computed item).resultBytes = some n → n = l.bytes.length)
          ↔ (Field.Widthless (w.keepResult item text).tree item text → ∀ n, lastRecorded ls = some n → n = 0)) := by
  obtain ⟨hin, hkept⟩ := resultBytes_of_writes hitem h
  rw [hnew, Option.or_none] at hkept
  refine ⟨_, write_of_workedOut hw, rfl, ?_⟩
  rw [computed_of_workedOut hin hw, hkept]
  refine ⟨rfl, ?_⟩
  dsimp only
  by_cases hnone : Field.Widthless (w.keepResult item text).tree item text
  · rw [Field.layout_of_widthless hnone hw.layout, Option.none_or]
    exact ⟨fun h _ => h, fun h => h hnone⟩
  · rw [Field.recorded_of_not_widthless hnone hpos hw.layout, Option.some_or]
    exact ⟨fun _ h => absurd h hnone, fun _ n hn => (Option.some.inj hn).symm⟩

/-- A field with a text of three characters, and then with one of one: the width is that of the second. -/
theorem kept_of_last_write_shorter :
    let t : Tree := ⟨#[⟨"item", [], "", [1], none, .none⟩, ⟨"value", [], "abc", [], some 0, .none⟩], []⟩
    let j : Job := ⟨⟨t, .zero, false, .stored []⟩, .inMemory ""⟩
    let o : Options := .standard ⟨2000, 1, 1, 0, 0, 0, 0⟩
    ∃ j₁ j₂ ls text w spot l, 0 < t.nodes.size ∧ (t.computed 0).resultBytes = none ∧ Writes o .empty 0 j ls j₁
      ∧ WorkedOut o (j₁.sink.reader .empty) 0 none j₁.space text w spot l
      ∧ (∀ n, Field.width? (w.keepResult 0 text).tree 0 = .ok (some n) → 0 ≤ n)
      ∧ write o .empty 0 none j₁ = .ok () j₂ ∧ j₂.sink.toBytes = [97, 98, 99, 120]
      ∧ (j₂.space.tree.computed 0).result = some "x" ∧ (j₂.space.tree.computed 0).resultBytes = some 1
      ∧ l.bytes.length = 1 := by
  intro t j o
  have hrun : Action.succeeds (write o .empty 0 none j) (fun _ j₁ =>
      Action.succeeds (write o .empty 0 none { j₁ with space.tree := j₁.space.tree.setText 1 "x" }) fun _ j₂ =>
        decide (j₂.sink.toBytes = [97, 98, 99, 120] ∧ (j₂.space.tree.computed 0).result = some "x"
          ∧ (j₂.space.tree.computed 0).resultBytes = some 1)) = true := by
    decide +kernel
  obtain ⟨_, j₁, h₁, hrest⟩ := Action.succeeds_iff.mp hrun
  obtain ⟨_, j₂, h₂, hkept⟩ := Action.succeeds_iff.mp hrest
  obtain ⟨hbytes, hresult, hwidth⟩ := of_decide_eq_true hkept
  obtain ⟨text₁, w₁, spot₁, l₁, hw₁, -⟩ := workedOut_of_write h₁
  obtain ⟨text₂, w₂, spot₂, l₂, hw₂, -⟩ := workedOut_of_write h₂
  -- between the writes the text of the value is another one, and nothing else
  have htext : j₁.space.tree.Retexted (j₁.space.tree.setText 1 "x") :=
    .modify (f := fun x => { x with text := "x" }) (fun _ => rfl) fun _ => rfl
  have hwrites : Writes o .empty 0 j ([] ++ [l₁]) { j₁ with space.tree := j₁.space.tree.setText 1 "x" } :=
    .between (.written (.none j) hw₁ h₁) (Nat.le_of_eq htext.size.symm)
      (congrArg Computed.resultBytes (htext.computed 0))
  have hsame := sameAttrs_write o .empty 0 none j
  rw [Action.outcome_of_ok h₁] at hsame
  have hattrs := (hsame.trans htext.attr?).trans hw₂.sameAttrs
  have hpos : ∀ n, Field.width? (w₂.keepResult 0 text₂).tree 0 = .ok (some n) → 0 ≤ n := by
    intro n hn
    rw [Field.width?_of_none (hattrs 0 "bytes") (hattrs 0 "xbytes")] at hn
    cases hn
  obtain ⟨j', h', -, htext₂, hiff⟩ := kept_of_last_write (by decide) rfl hwrites hw₂ hpos
  obtain rfl : j' = j₂ := by
    rw [h₂] at h'
    cases h'
    rfl
  have hx : text₂ = "x" := Option.some.inj (htext₂.symm.trans hresult)
  have hlength := hiff.mpr (fun hnone => absurd (hx.symm.trans hnone.2) (by decide)) 1 hwidth
  exact ⟨_, j', _, text₂, w₂, spot₂, l₂, by decide, rfl, hwrites, hw₂, hpos, h₂, hbytes, hresult, hwidth, by omega⟩

/-- The width of an earlier write stays with a field whose last write had none: three bytes are written, then none. -/
theorem width_of_earlier_write_stays :
    let t : Tree := ⟨#[⟨"item", [], "", [1], none, .none⟩, ⟨"value", [], "abc", [], some 0, .none⟩], []⟩
    let j : Job := ⟨⟨t, .zero, false, .stored []⟩, .inMemory ""⟩
    let o : Options := .standard ⟨2000, 1, 1, 0, 0, 0, 0⟩
    ∃ j₁ j₂, write o .empty 0 none j = .ok () j₁
      ∧ write o .empty 0 none { j₁ with space.tree := j₁.space.tree.setText 1 "" } = .ok () j₂
      ∧ j₁.sink.toBytes = [97, 98, 99] ∧ j₂.sink.toBytes = [97, 98, 99]
      ∧ (j₂.space.tree.computed 0).result = some "" ∧ (j₂.space.tree.computed 0).resultBytes = some 3 := by
  intro t j o
  have hrun : Action.succeeds (write o .empty 0 none j) (fun _ j₁ => decide (j₁.sink.toBytes = [97, 98, 99]) &&
      Action.succeeds (write o .empty 0 none { j₁ with space.tree := j₁.space.tree.setText 1 "" }) fun _ j₂ =>
        decide (j₂.sink.toBytes = [97, 98, 99] ∧ (j₂.space.tree.computed 0).result = some ""
          ∧ (j₂.space.tree.computed 0).resultBytes = some 3)) = true := by
    decide +kernel
  obtain ⟨_, j₁, h₁, hrest⟩ := Action.succeeds_iff.mp hrun
  obtain ⟨hbytes, hrest⟩ := Bool.and_eq_true_iff.mp hrest
  obtain ⟨_, j₂, h₂, hkept⟩ := Action.succeeds_iff.mp hrest
  exact ⟨j₁, j₂, h₁, h₂, of_decide_eq_true hbytes, of_decide_eq_true hkept⟩

end Job

end Stencil
