/-
  Writing a field: all of it, in its place, or nothing.

  A field is worked out before it is written: its text, its place, its bytes.  What keeps it from being written is said
  without the program (`Unwritable`); a field is written exactly if nothing does (`write_of_unwritable`,
  `write_of_written`).  Then its bytes stand at the place that is given, or else at the one it declares, or else at the
  position of the sink, and the text and the width are kept with it.

  A field that is not written leaves the sink as it was, so a stream that stands at its end does so again behind any run
  of writes (`atEnd_attempts`).
-/
import Mathlib.Logic.Relation
import Stencil.Proofs.Field
import Stencil.Proofs.Field.Layout
import Stencil.Proofs.Stream

set_option autoImplicit false

namespace Stencil

/-! ## What stays in the tree -/

/-- A tree in which texts have been replaced: the nodes have the attributes and the computed values they had. -/
structure Tree.Retexted (t t' : Tree) : Prop where
  size : t'.nodes.size = t.nodes.size
  attrs : ∀ n, (t'.node n).attrs = (t.node n).attrs
  computed : ∀ n, t'.computed n = t.computed n

namespace Tree.Retexted

variable {t t₁ t₂ : Tree} {n : NodeId}

theorem refl (t : Tree) : Retexted t t := ⟨rfl, fun _ => rfl, fun _ => rfl⟩

theorem trans (h : Retexted t t₁) (h' : Retexted t₁ t₂) : Retexted t t₂ :=
  ⟨h'.size.trans h.size, fun n => (h'.attrs n).trans (h.attrs n), fun n => (h'.computed n).trans (h.computed n)⟩

theorem attr? (h : Retexted t t₁) (n : NodeId) (name : String) : t₁.attr? n name = t.attr? n name :=
  congrArg (Entries.get? name) (h.attrs n)

theorem modify {f : Node → Node} (ha : ∀ x, (f x).attrs = x.attrs) (hc : ∀ x, (f x).computed = x.computed) :
    Retexted t (t.modify n f) := by
  refine ⟨size_nodes_modify t n f, fun m => ?_, fun m => ?_⟩
  · rw [node_modify]
    split
    · exact ha _
    · rfl
  · unfold Tree.computed
    rw [node_modify]
    split
    · exact hc _
    · rfl

theorem setValue (text : String) : Retexted t (t.setValue n text) := by
  have hcleared : Retexted t ((t.modifyChildren n fun _ => []).setText n text) :=
    (modify (f := fun x => { x with children := [] }) (fun _ => rfl) fun _ => rfl).trans
      (modify (f := fun x => { x with text }) (fun _ => rfl) fun _ => rfl)
  refine hcleared.trans ⟨(foldl_clear_frame _).1, fun m => ?_, fun m => ?_⟩
  · unfold Tree.setValue
    rw [node_foldl_clear]
    split <;> rfl
  · unfold Tree.setValue Tree.computed
    rw [node_foldl_clear]
    split <;> rfl

end Tree.Retexted

/-! ## Values that are set -/

/-- `t'` is `t` after texts have been made the content of nodes, one after another. -/
def Tree.Revalued : Tree → Tree → Prop := Relation.ReflTransGen fun t t' => ∃ n text, t' = t.setValue n text

/-- What setting a value keeps is kept by setting values. -/
theorem Tree.Revalued.induct {t t' : Tree} {R : Tree → Tree → Prop} (h : Revalued t t') (hrefl : ∀ t, R t t)
    (htrans : ∀ t t₁ t₂, R t t₁ → R t₁ t₂ → R t t₂) (hset : ∀ t n text, R t (t.setValue n text)) : R t t' := by
  induction h with
  | refl => exact hrefl t
  | tail _ hstep ih =>
    obtain ⟨n, text, rfl⟩ := hstep
    exact htrans _ _ _ ih (hset _ n text)

theorem Tree.Revalued.retexted {t t' : Tree} (h : Revalued t t') : Retexted t t' :=
  h.induct .refl (fun _ _ _ => .trans) fun _ _ => .setValue

theorem Tree.Revalued.loosened {t t' : Tree} (h : Revalued t t') : Loosened t t' :=
  h.induct .refl (fun _ _ _ => .trans) fun _ _ => .setValue

/-- The nodes of two trees have the same attributes. -/
def Tree.SameAttrs (t t' : Tree) : Prop := ∀ n name, t'.attr? n name = t.attr? n name

theorem Tree.SameAttrs.trans {t t₁ t₂ : Tree} (h : SameAttrs t t₁) (h' : SameAttrs t₁ t₂) : SameAttrs t t₂ :=
  fun n name => (h' n name).trans (h n name)

theorem Tree.sameAttrs_modifyComputed {t : Tree} (n : NodeId) (f : Computed → Computed) :
    SameAttrs t (t.modifyComputed n f) := by
  intro m name
  unfold Tree.attr? Tree.modifyComputed
  rw [node_modify]
  split <;> rfl

namespace Field

open Stencil.Tree (Retexted Revalued)

variable {o : Options} {read : FileReader} {item child : NodeId} {w w' : Workspace}

/-- A step that does no more to the tree than setting values, whatever becomes of it. -/
def Revalues {α : Type} (x : Action Workspace α) : Prop := Action.Always (fun w w' => Revalued w.tree w'.tree) x

theorem revalues_pure {α : Type} (a : α) : Revalues (pure a) := Action.always_pure (fun _ => .refl) a

theorem revalues_fail {α : Type} (cause : Cause) : Revalues (Action.fail cause : Action Workspace α) :=
  Action.always_fail (fun _ => .refl) cause

theorem revalues_ofExcept {α : Type} (r : Except Error α) : Revalues (Action.ofExcept r) :=
  Action.always_ofExcept (fun _ => .refl) r

theorem revalues_get_bind {α : Type} {f : Workspace → Action Workspace α} (h : ∀ w, Revalues (f w)) :
    Revalues (get >>= f) :=
  Action.always_get_bind fun w => h w w

theorem revalues_bind {α β : Type} {x : Action Workspace α} {f : α → Action Workspace β} (hx : Revalues x)
    (hf : ∀ a, Revalues (f a)) : Revalues (x >>= f) :=
  Action.always_bind (fun _ _ _ h h' => h.trans h') hx hf

theorem revalues_setValue (text : String) : Revalues (Workspace.modifyTree fun t => t.setValue child text) :=
  Action.always_modify fun _ => .single ⟨child, text, rfl⟩

theorem revalues_takeIncrement (text : String) : Revalues (takeIncrement child text) := by
  unfold takeIncrement
  split
  · exact revalues_bind (revalues_setValue _) fun _ => revalues_pure _
  · split
    · exact revalues_fail _
    · split
      · exact revalues_bind (revalues_setValue _) fun _ => revalues_pure _
      · exact revalues_fail _

theorem revalues_draw (name : Option String) : Revalues (Workspace.draw name) := by
  intro w
  unfold Workspace.draw Action.outcome
  dsimp only
  rcases w.counters.draw name with ⟨_ | _, _⟩ <;> exact .refl

theorem revalues_transform (name input : String) : Revalues (Workspace.transform o read name input) := by
  intro w
  rw [Workspace.transform, Action.outcome_within]
  exact .refl

theorem revalues_evaluate : Revalues (evaluate o child item) := by
  refine revalues_get_bind fun w => ?_
  dsimp only
  split
  · exact revalues_pure _
  · exact revalues_ofExcept _
  · exact revalues_ofExcept _
  · exact revalues_bind (revalues_draw _) fun _ => revalues_pure _
  · exact revalues_takeIncrement _
  · exact revalues_pure _

theorem revalues_takeChild (before : String) : Revalues (takeChild o read item before child) := by
  refine revalues_get_bind fun w => ?_
  split
  · exact revalues_evaluate
  · split
    · exact revalues_evaluate
    · exact revalues_pure _
  · split
    · exact revalues_pure _
    · exact revalues_get_bind fun _ => revalues_transform _ _
  · exact revalues_pure _

/-- Working out a text sets values in the tree and does nothing else to it, also if it fails. -/
theorem revalues_value : Revalues (value o read item) :=
  revalues_get_bind fun _ =>
    Action.always_foldlM (fun _ => .refl) (fun _ _ _ h h' => h.trans h') (fun before _ => revalues_takeChild before) "" _

/-- So the attributes and the computed values stay. -/
theorem retexts_value : Action.Always (fun w w' => Retexted w.tree w'.tree) (value o read item) :=
  fun w => Tree.Revalued.retexted (revalues_value w)

end Field

/-! ## Working a field out -/

namespace Workspace

/-- Keeps a text with a field as what was written last for it. -/
def keepResult (w : Workspace) (item : NodeId) (text : String) : Workspace :=
  { w with tree := w.tree.modifyComputed item fun c => { c with result := some text } }

/-- Keeps a width with a field, if there is one. -/
def keepWidth (w : Workspace) (item : NodeId) : Option Int → Workspace
  | some n => { w with tree := w.tree.modifyComputed item fun c => { c with resultBytes := some n } }
  | none => w

variable {w : Workspace} {item : NodeId}

theorem sameAttrs_keepResult (text : String) : w.tree.SameAttrs (w.keepResult item text).tree :=
  Tree.sameAttrs_modifyComputed item _

theorem sameAttrs_keepWidth (recorded : Option Int) : w.tree.SameAttrs (w.keepWidth item recorded).tree := by
  cases recorded with
  | none => exact fun _ _ => rfl
  | some n => exact Tree.sameAttrs_modifyComputed item _

end Workspace

namespace Field

variable {o : Options} {read : FileReader} {item : NodeId} {place spot : Option Nat} {w w' : Workspace} {text : String}
  {l : Layout} {e : Error}

/-- The place at which a field is written: the one that is given, or else the one that it declares. -/
def placeOf (t : Tree) (item : NodeId) : Option Nat → Except Error (Option Nat)
  | some n => .ok (some n)
  | none => offset? t item

/-- What keeps a field from being written. -/
inductive Unwritable (o : Options) (read : FileReader) (item : NodeId) (place : Option Nat) (w : Workspace) :
    Error → Workspace → Prop
  /-- It has no text. -/
  | value {e : Error} {w' : Workspace} (hvalue : value o read item w = .error e w') : Unwritable o read item place w e w'
  /-- It has no place. -/
  | place {text : String} {w' : Workspace} {e : Error} (hvalue : value o read item w = .ok text w')
    (hplace : placeOf (w'.keepResult item text).tree item place = .error e) :
    Unwritable o read item place w e (w'.keepResult item text)
  /-- Its text has no bytes. -/
  | layout {text : String} {w' : Workspace} {spot : Option Nat} {e : Error} (hvalue : value o read item w = .ok text w')
    (hplace : placeOf (w'.keepResult item text).tree item place = .ok spot)
    (hlayout : Unfit (w'.keepResult item text).tree item text e) :
    Unwritable o read item place w e (w'.keepResult item text)

/-- What is written for a field: its text, where it goes, and its bytes. -/
structure WorkedOut (o : Options) (read : FileReader) (item : NodeId) (place : Option Nat) (w : Workspace) (text : String)
    (w' : Workspace) (spot : Option Nat) (l : Layout) : Prop where
  value : value o read item w = .ok text w'
  place : placeOf (w'.keepResult item text).tree item place = .ok spot
  layout : layout (w'.keepResult item text).tree item text = .ok l

/-- What a field that cannot be written leaves: texts have been replaced, and it may keep its own. -/
theorem Unwritable.retexted (h : Unwritable o read item place w e w') :
    ∃ w₁, w.tree.Retexted w₁.tree ∧ (w' = w₁ ∨ ∃ text, w' = w₁.keepResult item text) := by
  cases h with
  | value hvalue => exact ⟨_, retexts_value.of_error hvalue, .inl rfl⟩
  | place hvalue => exact ⟨_, retexts_value.of_ok hvalue, .inr ⟨_, rfl⟩⟩
  | layout hvalue => exact ⟨_, retexts_value.of_ok hvalue, .inr ⟨_, rfl⟩⟩

theorem Unwritable.sameAttrs (h : Unwritable o read item place w e w') : w.tree.SameAttrs w'.tree := by
  obtain ⟨w₁, hr, rfl | ⟨text, rfl⟩⟩ := h.retexted
  · exact hr.attr?
  · exact Tree.SameAttrs.trans hr.attr? (Workspace.sameAttrs_keepResult text)

theorem WorkedOut.sameAttrs (h : WorkedOut o read item place w text w' spot l) :
    w.tree.SameAttrs (w'.keepResult item text).tree :=
  Tree.SameAttrs.trans (retexts_value.of_ok h.value).attr? (Workspace.sameAttrs_keepResult text)

/-- A field that neither gets a place nor declares one is written at the position. -/
theorem WorkedOut.spot_eq_none (h : WorkedOut o read item none w text w' spot l)
    (hoffset : w.tree.attr? item "offset" = none) : spot = none := by
  have hnone := h.place
  rw [placeOf, offset?, h.sameAttrs item "offset", hoffset] at hnone
  cases hnone
  rfl

/-- Working a field out fails, or it gives all there is to write. -/
theorem unwritable_or_workedOut (o : Options) (read : FileReader) (item : NodeId) (place : Option Nat) (w : Workspace) :
    (∃ e w', Unwritable o read item place w e w') ∨ ∃ text w' spot l, WorkedOut o read item place w text w' spot l := by
  cases hv : value o read item w with
  | error e w' => exact .inl ⟨e, w', .value hv⟩
  | ok text w' =>
    cases hp : placeOf (w'.keepResult item text).tree item place with
    | error e => exact .inl ⟨e, _, .place hv hp⟩
    | ok spot =>
      cases hl : layout (w'.keepResult item text).tree item text with
      | error e => exact .inl ⟨e, _, .layout hv hp (layout_eq_error_iff.mp hl)⟩
      | ok l => exact .inr ⟨text, w', spot, l, hv, hp, hl⟩

theorem prepare_of_value (hv : value o read item w = .ok text w') : prepare o read item place w
    = (do
        let spot ← Action.ofExcept (placeOf (w'.keepResult item text).tree item place)
        return ⟨spot, ← Action.ofExcept (layout (w'.keepResult item text).tree item text)⟩ : Action Workspace Written)
      (w'.keepResult item text) := by
  rw [prepare, Action.bind_of_ok hv, Workspace.modifyTree, Action.modify_bind, Action.get_bind]
  cases place <;> rfl

theorem prepare_of_unwritable (h : Unwritable o read item place w e w') : prepare o read item place w = .error e w' := by
  cases h with
  | value hv => exact Action.bind_of_error hv
  | place hv hp =>
    rw [prepare_of_value hv, hp]
    rfl
  | layout hv hp hl =>
    rw [prepare_of_value hv, hp, layout_eq_error_iff.mpr hl]
    rfl

theorem prepare_of_workedOut (h : WorkedOut o read item place w text w' spot l) :
    prepare o read item place w = .ok ⟨spot, l⟩ (w'.keepResult item text) := by
  rw [prepare_of_value h.value, h.place, h.layout]
  rfl

theorem record_eq (l : Layout) : record item l w = .ok () (w.keepWidth item l.recorded) := by
  unfold record
  cases l.recorded <;> rfl

end Field

/-! ## Writing it -/

namespace Job

open Stencil.Field (Unwritable WorkedOut)

variable {o : Options} {files : Files} {item : NodeId} {place spot : Option Nat} {j : Job} {w : Workspace} {text : String}
  {l : Field.Layout} {e : Error}

/-- A field that cannot be written leaves the sink as it was. -/
theorem write_of_unwritable (h : Unwritable o (j.sink.reader files) item place j.space e w) :
    write o files item place j = .error (e.locate (w.tree.describe item)) ⟨w, j.sink⟩ := by
  rw [write, Action.locating, Action.get_bind, Action.bind_of_error (onSpace_of_error (Field.prepare_of_unwritable h))]

/-- A field that can be written is. -/
theorem write_of_workedOut (h : WorkedOut o (j.sink.reader files) item place j.space text w spot l) :
    write o files item place j
      = .ok () ⟨(w.keepResult item text).keepWidth item l.recorded, j.sink.emit spot l.bytes⟩ := by
  rw [write, Action.locating, Action.get_bind, Action.bind_of_ok (onSpace_of_ok (Field.prepare_of_workedOut h)), modifySink,
    Action.modify_bind, onSpace_of_ok (Field.record_eq l)]

/-- What a write that has succeeded has written. -/
theorem workedOut_of_write {j' : Job} (h : write o files item place j = .ok () j') :
    ∃ text w spot l, WorkedOut o (j.sink.reader files) item place j.space text w spot l
      ∧ j' = ⟨(w.keepResult item text).keepWidth item l.recorded, j.sink.emit spot l.bytes⟩ := by
  rcases Field.unwritable_or_workedOut o (j.sink.reader files) item place j.space with ⟨e, w, hu⟩ | ⟨text, w, spot, l, hw⟩
  · rw [write_of_unwritable hu] at h
    cases h
  · rw [write_of_workedOut hw] at h
    cases h
    exact ⟨text, w, spot, l, hw, rfl⟩

/-- Writing a field, and failing to, leaves the attributes as they were. -/
theorem sameAttrs_write (o : Options) (files : Files) (item : NodeId) (place : Option Nat) (j : Job) :
    j.space.tree.SameAttrs (Action.outcome (write o files item place) j).2.space.tree := by
  rcases Field.unwritable_or_workedOut o (j.sink.reader files) item place j.space with ⟨e, w, hu⟩ | ⟨text, w, spot, l, hw⟩
  · rw [Action.outcome_of_error (write_of_unwritable hu)]
    exact hu.sameAttrs
  · rw [Action.outcome_of_ok (write_of_workedOut hw)]
    exact hw.sameAttrs.trans (Workspace.sameAttrs_keepWidth l.recorded)

/-- Whether a field is written or not: a stream that stands at its end does so again. -/
theorem atEnd_write (item : NodeId) (place : Option Nat) (h : j.sink.stream.AtEnd) :
    (Action.outcome (write o files item place) j).2.sink.stream.AtEnd := by
  rcases Field.unwritable_or_workedOut o (j.sink.reader files) item place j.space with ⟨e, w, hu⟩ | ⟨text, w, spot, l, hw⟩
  · rw [Action.outcome_of_error (write_of_unwritable hu)]
    exact h
  · rw [Action.outcome_of_ok (write_of_workedOut hw)]
    exact h.emit spot l.bytes

/-- Writes fields one after another, each at a place that is given or not; one that fails is passed over. -/
def attempts (o : Options) (files : Files) : List (NodeId × Option Nat) → Job → Job
  | [], j => j
  | (item, place) :: writes, j => attempts o files writes (Action.outcome (write o files item place) j).2

theorem atEnd_attempts (writes : List (NodeId × Option Nat)) (h : j.sink.stream.AtEnd) :
    (attempts o files writes j).sink.stream.AtEnd := by
  induction writes generalizing j with
  | nil => exact h
  | cons write writes ih => exact ih (atEnd_write write.1 write.2 h)

/-- A field is written as a whole, in its place, or not at all.

    What keeps it from being written leaves the stream as it was.  Otherwise its bytes stand over those at the place
    that is given, or else at the one that it declares, behind zeros if the stream ends before, and the position is
    behind the last byte; or they stand at the position, which goes on by as many.  So a stream that stands at its end
    does so behind any run of writes, whichever of them fail. -/
theorem written_in_place_or_not_at_all (o : Options) (files : Files) :
    (∀ item place (j : Job) e w, Unwritable o (j.sink.reader files) item place j.space e w →
      write o files item place j = .error (e.locate (w.tree.describe item)) ⟨w, j.sink⟩)
    ∧ (∀ item place (j : Job), (¬ ∃ e w, Unwritable o (j.sink.reader files) item place j.space e w) →
      ∃ text w spot l j', WorkedOut o (j.sink.reader files) item place j.space text w spot l
        ∧ write o files item place j = .ok () j'
        ∧ match spot with
          | none => j'.sink.stream.toBytes = j.sink.stream.overlay j.sink.stream.position l.bytes
              ∧ j'.sink.stream.position = j.sink.stream.position + l.bytes.length
          | some n => j'.sink.stream.toBytes = j.sink.stream.overlay n l.bytes ∧ j'.sink.stream.AtEnd)
    ∧ (∀ writes (j : Job), j.sink.stream.AtEnd → (attempts o files writes j).sink.stream.AtEnd) := by
  refine ⟨fun item place j e w hu => write_of_unwritable hu, fun item place j hnone => ?_,
    fun writes j h => atEnd_attempts writes h⟩
  rcases Field.unwritable_or_workedOut o (j.sink.reader files) item place j.space with hu | ⟨text, w, spot, l, hw⟩
  · exact absurd hu hnone
  · refine ⟨text, w, spot, l, _, hw, write_of_workedOut hw, ?_⟩
    cases spot with
    | none => exact ⟨Stream.toBytes_write _ _, Stream.position_write _ _⟩
    | some n => exact Stream.emit_at _ n _

end Job

end Stencil
