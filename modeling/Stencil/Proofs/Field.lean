/-
  What writing a field changes in the tree, and in the sink.

  Working out a value changes the tree only where a number grows each time it is taken, in a child of the
  field; then the text and the width are kept with the field (`refreshed_prepare`, `refreshed_record`).
  A sink gets the bytes: which lazy fields wait on its levels, what it is called and where its bytes
  belong stay as they are (`SameSink`).
-/
import Stencil.Proofs.Action
import Stencil.Proofs.Tree.Frame
import Stencil.Sink

set_option autoImplicit false

namespace Stencil

open Stencil.Tree (Refreshed fieldTags)

variable {o : Options} {read : FileReader} {item child : NodeId}

namespace Field

variable {w w' : Workspace} {text value : String}

/-! ## Values -/

/-- Working out a value changes nothing, or what a part of the field holds. -/
def Takes (child : NodeId) (w w' : Workspace) : Prop :=
  w'.tree = w.tree ∨ w.tree.name child ∈ fieldTags ∧ ∃ text, w'.tree = w.tree.setValue child text

theorem takes_takeIncrement (hname : w.tree.name child ∈ fieldTags)
    (h : takeIncrement child text w = .ok value w') : Takes child w w' := by
  unfold takeIncrement at h
  split at h
  · rw [Workspace.modifyTree, Action.modify_bind_eq_ok] at h
    obtain ⟨-, rfl⟩ := Action.pure_eq_ok.mp h
    exact .inr ⟨hname, "1", rfl⟩
  · cases hn : Text.boundedInt .int64 (Text.trim text) with
    | error fault =>
      simp only [hn] at h
      exact (Action.fail_eq_ok.mp h).elim
    | ok n =>
      simp only [hn] at h
      split at h
      · rw [Workspace.modifyTree, Action.modify_bind_eq_ok] at h
        obtain ⟨-, rfl⟩ := Action.pure_eq_ok.mp h
        exact .inr ⟨hname, toString (n + 1), rfl⟩
      · exact (Action.fail_eq_ok.mp h).elim

theorem tree_draw {name : Option String} {n : Int} (h : Workspace.draw name w = .ok n w') :
    w'.tree = w.tree := by
  unfold Workspace.draw at h
  split at h
  · cases h; rfl
  · cases h

theorem tree_transform {name input : String}
    (h : Workspace.transform o read name input w = .ok value w') : w'.tree = w.tree := by
  obtain ⟨maps, -, rfl⟩ := Action.within_eq_ok.mp h
  rfl

theorem takes_evaluate (hname : w.tree.name child ∈ fieldTags)
    (h : evaluate o child item w = .ok value w') : Takes child w w' := by
  unfold evaluate at h
  rw [Action.get_bind_eq_ok] at h
  generalize Origin.ofName (w.tree.attr? child "type") = origin at h
  cases origin with
  | literal => exact .inl (congrArg Workspace.tree (Action.pure_eq_ok.mp h).2.symm)
  | query => exact .inl (congrArg Workspace.tree (Action.ofExcept_eq_ok.mp h).2)
  | time => exact .inl (congrArg Workspace.tree (Action.ofExcept_eq_ok.mp h).2)
  | counter =>
    obtain ⟨n, w₁, hd, h⟩ := Action.bind_eq_ok.mp h
    obtain ⟨-, rfl⟩ := Action.pure_eq_ok.mp h
    exact .inl (tree_draw hd)
  | increment => exact takes_takeIncrement hname h
  | outside => exact .inl (congrArg Workspace.tree (Action.pure_eq_ok.mp h).2.symm)

theorem takes_takeChild {before : String} (h : takeChild o read item before child w = .ok value w') :
    Takes child w w' := by
  unfold takeChild at h
  rw [Action.get_bind_eq_ok] at h
  have same : ∀ {v : String}, (pure v : Action Workspace String) w = .ok value w' →
      Takes child w w' :=
    fun h => .inl (congrArg Workspace.tree (Action.pure_eq_ok.mp h).2.symm)
  generalize hn : w.tree.name child = name at h
  split at h
  · exact takes_evaluate (by rw [hn]; decide) h
  · split at h
    · exact takes_evaluate (by rw [hn]; decide) h
    · exact same h
  · split at h
    · exact same h
    · rw [Action.get_bind_eq_ok] at h
      exact .inl (tree_transform h)
  · exact same h

/-- The children of a field are taken one after another; each of them stays a child of the field. -/
theorem refreshed_takeChildren {children : List NodeId} {before : String}
    (hwf : w.tree.WellFormed) (hc : ∀ c ∈ children, w.tree.parent? c = some item)
    (h : children.foldlM (takeChild o read item) before w = .ok value w') :
    Refreshed w.tree w'.tree := by
  induction children generalizing w before with
  | nil =>
    obtain ⟨-, rfl⟩ := Action.pure_eq_ok.mp h
    exact .refl hwf
  | cons c cs ih =>
    rw [List.foldlM_cons] at h
    obtain ⟨v, w₁, h₁, h₂⟩ := Action.bind_eq_ok.mp h
    have hpc := hc c List.mem_cons_self
    have hcs : ∀ c' ∈ cs, w.tree.parent? c' = some item :=
      fun c' hc' => hc c' (List.mem_cons_of_mem _ hc')
    rcases takes_takeChild h₁ with he | ⟨hname, text, he⟩
    · rw [← he] at hwf hcs ⊢
      exact ih hwf hcs h₂
    · have hr : Refreshed w.tree w₁.tree := he ▸ .setValue hwf hpc hname text
      refine hr.trans (ih hr.wellFormed (fun c' hc' => ?_) h₂)
      rw [he, hwf.parent?_setValue, hcs c' hc', if_neg]
      exact fun hi => hwf.parent_ne hpc (Option.some.inj hi)

theorem refreshed_value (hwf : w.tree.WellFormed) (h : Field.value o read item w = .ok value w') :
    Refreshed w.tree w'.tree := by
  unfold Field.value at h
  rw [Action.get_bind_eq_ok] at h
  exact refreshed_takeChildren hwf (fun c hc => hwf.mem_children.mp hc) h

/-! ## Widths and places -/

theorem refreshed_prepare {place : Option Nat} {written : Written} (hwf : w.tree.WellFormed)
    (h : prepare o read item place w = .ok written w') : Refreshed w.tree w'.tree := by
  unfold prepare at h
  obtain ⟨text, w₁, h₁, h⟩ := Action.bind_eq_ok.mp h
  have hv := refreshed_value hwf h₁
  rw [Workspace.modifyTree, Action.modify_bind_eq_ok, Action.get_bind_eq_ok] at h
  have hr : Refreshed w₁.tree (w₁.tree.modifyComputed item fun c => { c with result := some text }) :=
    .modifyComputed hv.wellFormed item fun _ => rfl
  refine hv.trans ?_
  cases place with
  | some n =>
    obtain ⟨l, -, h⟩ := Action.ofExcept_bind_eq_ok.mp h
    obtain ⟨-, rfl⟩ := Action.pure_eq_ok.mp h
    exact hr
  | none =>
    obtain ⟨place, -, h⟩ := Action.ofExcept_bind_eq_ok.mp h
    obtain ⟨l, -, h⟩ := Action.ofExcept_bind_eq_ok.mp h
    obtain ⟨-, rfl⟩ := Action.pure_eq_ok.mp h
    exact hr

theorem refreshed_record {l : Layout} (hwf : w.tree.WellFormed)
    (h : record item l w = .ok () w') : Refreshed w.tree w'.tree := by
  unfold record at h
  cases hl : l.recorded with
  | some n =>
    simp only [hl] at h
    rw [Action.modify_eq_ok.mp h]
    exact .modifyComputed hwf item (f := fun c => { c with resultBytes := some n }) fun _ => rfl
  | none =>
    simp only [hl] at h
    obtain ⟨-, rfl⟩ := Action.pure_eq_ok.mp h
    exact .refl hwf

end Field

/-! ## Sinks -/

/-- A sink is called what it was called, and its bytes belong where they belonged. -/
def SameSink (s s' : Sink) : Prop := s'.name = s.name ∧ s'.flush.target = s.flush.target

namespace SameSink

variable {s s₁ s₂ : Sink}

theorem refl (s : Sink) : SameSink s s := ⟨rfl, rfl⟩

theorem trans (h : SameSink s s₁) (h' : SameSink s₁ s₂) : SameSink s s₂ :=
  ⟨h'.1.trans h.1, h'.2.trans h.2⟩

theorem flush (s : Sink) : SameSink s s.flush := by
  obtain ⟨name, stream, levels, target⟩ := s
  cases target <;> exact ⟨rfl, rfl⟩

theorem emit (s : Sink) (place : Option Nat) (bs : Bytes) : SameSink s (s.emit place bs) := by
  obtain ⟨name, stream, levels, target⟩ := s
  cases target <;> cases place <;> exact ⟨rfl, rfl⟩

theorem levels (s : Sink) (levels : List (List Waiting)) : SameSink s { s with levels } := by
  obtain ⟨name, stream, _, target⟩ := s
  cases target <;> exact ⟨rfl, rfl⟩

end SameSink

theorem levels_flush (s : Sink) : s.flush.levels = s.levels := by
  unfold Sink.flush
  cases s.target <;> rfl

theorem Sink.stream_flush (s : Sink) : s.flush.stream = s.stream := by
  unfold flush
  split <;> rfl

namespace Job

variable {files : Files} {j j' j₁ : Job} {place : Option Nat} {e : Error}

/-! ## Steps of a sink at work -/

theorem onSpace_of_ok {α : Type} {x : Action Workspace α} {a : α} {space : Workspace} (h : x j.space = .ok a space) :
    onSpace x j = .ok a { j with space } := by
  simp only [onSpace, Action.within, h]

theorem onSpace_of_error {α : Type} {x : Action Workspace α} {space : Workspace} (h : x j.space = .error e space) :
    onSpace x j = .error e { j with space } := by
  simp only [onSpace, Action.within, h]

/-- A field that is put into a sink is written. -/
theorem setData_of_write_error (h : write o files item none { j with sink := j.sink.flush } = .error e j₁) :
    setData o files item j = .error e j₁ := by
  rw [setData, Action.get_bind, Action.get_bind, modifySink, Action.modify_bind]
  exact Action.bind_of_error h

theorem setData_of_write_ok (hlazy : j.space.tree.attr? item "eval" ≠ some "lazy")
    (h : write o files item none { j with sink := j.sink.flush } = .ok () j₁) : setData o files item j = .ok () j₁ := by
  rw [setData, Action.get_bind, Action.get_bind, modifySink, Action.modify_bind, Action.bind_of_ok h,
    if_neg (by simpa using hlazy)]
  rfl

/-- A lazy field waits on the innermost level. -/
theorem setData_of_lazy {level : List Waiting} {levels : List (List Waiting)}
    (hlazy : j.space.tree.attr? item "eval" = some "lazy") (hplace : j₁.space.tree.attr? item "offset" = none)
    (hlevels : j₁.sink.levels = level :: levels)
    (h : write o files item none { j with sink := j.sink.flush } = .ok () j₁) : setData o files item j
      = .ok () { j₁ with sink :=
          { j₁.sink with levels := (⟨item, some j.sink.stream.position⟩ :: level) :: levels } } := by
  rw [setData, Action.get_bind, Action.get_bind, modifySink, Action.modify_bind, Action.bind_of_ok h,
    if_pos (by simpa using hlazy), Action.get_bind, Action.get_bind]
  simp only [hplace, hlevels]
  rfl

/-! ## What a write changes -/

/-- What writing a field does: the tree gets its values, and the levels are the same. -/
structure Wrote (j j' : Job) : Prop where
  tree : Refreshed j.space.tree j'.space.tree
  same : SameSink j.sink j'.sink
  levels : j'.sink.levels = j.sink.levels

theorem wrote_write (hwf : j.space.tree.WellFormed)
    (h : write o files item place j = .ok () j') : Wrote j j' := by
  rw [write, Action.locating_eq_ok, Action.get_bind_eq_ok] at h
  obtain ⟨written, j₁, h₁, h⟩ := Action.bind_eq_ok.mp h
  obtain ⟨w₁, hp, rfl⟩ := Action.within_eq_ok.mp h₁
  have hr := Field.refreshed_prepare hwf hp
  rw [modifySink, Action.modify_bind_eq_ok] at h
  obtain ⟨w₂, hw, rfl⟩ := Action.within_eq_ok.mp h
  exact ⟨hr.trans (Field.refreshed_record hr.wellFormed hw), .emit .., rfl⟩

/-- What putting a field into a sink does: if it is lazy, it waits on the innermost level. -/
structure Put (t : Tree) (item : NodeId) (j j' : Job) : Prop where
  tree : Refreshed j.space.tree j'.space.tree
  same : SameSink j.sink j'.sink
  levels : if t.attr? item "eval" = some "lazy" then
      ∃ offset level levels, j.sink.levels = level :: levels
        ∧ j'.sink.levels = (⟨item, offset⟩ :: level) :: levels
    else j'.sink.levels = j.sink.levels

theorem put_setData (hwf : j.space.tree.WellFormed) (h : setData o files item j = .ok () j') :
    Put j.space.tree item j j' := by
  rw [setData, Action.get_bind_eq_ok, Action.get_bind_eq_ok, modifySink,
    Action.modify_bind_eq_ok] at h
  obtain ⟨_, j₁, h₁, h⟩ := Action.bind_eq_ok.mp h
  have hw := wrote_write (j := { j with sink := j.sink.flush }) hwf h₁
  have hsame := (SameSink.flush j.sink).trans hw.same
  have hlevels := hw.levels.trans (levels_flush j.sink)
  split at h
  · rename_i hlazy
    rw [Action.get_bind_eq_ok, Action.get_bind_eq_ok] at h
    cases hl : j₁.sink.levels with
    | nil =>
      simp only [hl] at h
      exact (Action.fail_eq_ok.mp h).elim
    | cons level levels =>
      simp only [hl] at h
      rw [Action.modify_eq_ok.mp h]
      refine ⟨hw.tree, hsame.trans (.levels ..), ?_⟩
      rw [if_pos (by simpa using hlazy), ← hlevels, hl]
      exact ⟨_, level, levels, rfl, rfl⟩
  · rename_i hlazy
    obtain ⟨-, rfl⟩ := Action.pure_eq_ok.mp h
    refine ⟨hw.tree, hsame, ?_⟩
    rw [if_neg (by simpa using hlazy)]
    exact hlevels

theorem replayed {level : List Waiting} {levels : List (List Waiting)} {ws : List Waiting}
    (hwf : j.space.tree.WellFormed) (hl : j.sink.levels = (ws ++ level) :: levels)
    (h : replay o files ws j = .ok () j') :
    Refreshed j.space.tree j'.space.tree ∧ SameSink j.sink j'.sink
      ∧ j'.sink.levels = level :: levels := by
  induction ws generalizing j with
  | nil =>
    obtain ⟨-, rfl⟩ := Action.pure_eq_ok.mp h
    exact ⟨.refl hwf, .refl _, hl⟩
  | cons w ws ih =>
    rw [replay, modifySink, Action.modify_bind_eq_ok] at h
    obtain ⟨_, j₁, h₁, h⟩ := Action.bind_eq_ok.mp h
    have hdrop : dropWaiting j.sink = { j.sink with levels := (ws ++ level) :: levels } := by
      unfold dropWaiting
      rw [hl]
      rfl
    rw [hdrop] at h₁
    have hw := wrote_write (j := { j with sink := { j.sink with levels := (ws ++ level) :: levels } })
      hwf h₁
    obtain ⟨hr, hs, hlev⟩ := ih hw.tree.wellFormed hw.levels h
    exact ⟨hw.tree.trans hr, ((SameSink.levels ..).trans hw.same).trans hs, hlev⟩

/-- What completing the innermost level does: no field waits on it any more. -/
structure Completed (j j' : Job) : Prop where
  tree : Refreshed j.space.tree j'.space.tree
  same : SameSink j.sink j'.sink
  levels : j'.sink.levels = match j.sink.levels with
    | [] => []
    | _ :: levels => [] :: levels

theorem completed_writeChunk (hwf : j.space.tree.WellFormed)
    (h : writeChunk o files j = .ok () j') : Completed j j' := by
  rw [writeChunk, Action.get_bind_eq_ok] at h
  cases hl : j.sink.levels with
  | nil =>
    rw [hl] at h
    obtain ⟨-, rfl⟩ := Action.pure_eq_ok.mp h
    refine ⟨.refl hwf, .refl _, ?_⟩
    rw [hl]
  | cons level levels =>
    rw [hl] at h
    have hl' : j.sink.levels = (level ++ []) :: levels := by rw [hl, List.append_nil]
    obtain ⟨hr, hs, hlev⟩ := replayed hwf hl' h
    refine ⟨hr, hs, ?_⟩
    rw [hl]
    exact hlev

/-- What completing and closing all levels does. -/
structure Emptied (j j' : Job) : Prop where
  tree : Refreshed j.space.tree j'.space.tree
  same : SameSink j.sink j'.sink
  levels : j'.sink.levels = []

theorem emptied_closeLevels {n : Nat} (hwf : j.space.tree.WellFormed) (hn : j.sink.levels.length = n)
    (h : closeLevels o files n j = .ok () j') : Emptied j j' := by
  induction n generalizing j with
  | zero =>
    obtain ⟨-, rfl⟩ := Action.pure_eq_ok.mp h
    exact ⟨.refl hwf, .refl _, List.length_eq_zero_iff.mp hn⟩
  | succ n ih =>
    unfold closeLevels at h
    obtain ⟨_, j₁, h₁, h⟩ := Action.bind_eq_ok.mp h
    rw [modifySink, Action.modify_bind_eq_ok] at h
    have hc := completed_writeChunk hwf h₁
    have hlen : j₁.sink.pop.levels.length = n := by
      show j₁.sink.levels.tail.length = n
      rw [hc.levels]
      cases hl : j.sink.levels with
      | nil => rw [hl] at hn; cases hn
      | cons level levels => rw [hl] at hn; exact Nat.succ.inj hn
    have hr := ih (j := { j₁ with sink := j₁.sink.pop }) hc.tree.wellFormed hlen h
    exact ⟨hc.tree.trans hr.tree, (hc.same.trans (.levels ..)).trans hr.same, hr.levels⟩

theorem emptied_closeAll (hwf : j.space.tree.WellFormed) (h : closeAll o files j = .ok () j') :
    Emptied j j' := by
  rw [closeAll, Action.get_bind_eq_ok] at h
  exact emptied_closeLevels hwf rfl h

end Job

end Stencil
