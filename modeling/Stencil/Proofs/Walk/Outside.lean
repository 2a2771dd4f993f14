/-
  Whole documents that the walk is outside of.

  Take a set of nodes that is closed under links (`Closed`), and none of which hangs together with a document that the
  walk is in.

    1. A value that is put into a node cuts off the children that the node had, and fields are written without any
       other change of links (`Loosened`): so a set that is closed stays closed, whatever field is written.
    2. Whatever else is done in a round makes and drops links in the innermost document only, or in a new one
       (`Visiting.closed`, `RunEnded.closed`, `Coherent.closed_leave`).
    3. So the set stays closed, and the walk stays outside it (`Coherent.outside_round`).  The main document may see
       the secondary ones, so as long as it is the only one that is walked, these have to be outside the set, too.
-/
import Stencil.Proofs.Field.Writing
import Stencil.Proofs.Walk.Untouched

set_option autoImplicit false

namespace Stencil

open Stencil.Tree (Under Closed Loosened Added)

/-! ## Fields cut links -/

namespace Job

variable {o : Options} {files : Files} {item : NodeId} {place : Option Nat} {j j' : Job} {u : Unit}

/-- Writing a field makes no link. -/
theorem loosened_write (h : write o files item place j = .ok u j') : Loosened j.space.tree j'.space.tree := by
  obtain ⟨text, w, spot, l, hw, rfl⟩ := workedOut_of_write h
  have hvalue := (Field.revalues_value.of_ok hw.value).loosened
  have hresult : Loosened w.tree (w.keepResult item text).tree := .modify fun _ => rfl
  have hwidth : Loosened (w.keepResult item text).tree ((w.keepResult item text).keepWidth item l.recorded).tree := by
    cases l.recorded with
    | none => exact .refl _
    | some n => exact .modify fun _ => rfl
  exact (hvalue.trans hresult).trans hwidth

theorem loosened_setData (h : setData o files item j = .ok u j') : Loosened j.space.tree j'.space.tree := by
  rw [setData, Action.get_bind_eq_ok, Action.get_bind_eq_ok, modifySink, Action.modify_bind_eq_ok] at h
  obtain ⟨_, j₁, h₁, h⟩ := Action.bind_eq_ok.mp h
  have hw := loosened_write h₁
  split at h
  · -- a lazy field waits, too
    rw [Action.get_bind_eq_ok, Action.get_bind_eq_ok] at h
    cases hl : j₁.sink.levels with
    | nil =>
      simp only [hl] at h
      exact (Action.fail_eq_ok.mp h).elim
    | cons level levels =>
      simp only [hl] at h
      rw [Action.modify_eq_ok.mp h]
      exact hw
  · obtain ⟨-, rfl⟩ := Action.pure_eq_ok.mp h
    exact hw

theorem loosened_replay {ws : List Waiting} (h : replay o files ws j = .ok u j') :
    Loosened j.space.tree j'.space.tree := by
  induction ws generalizing j with
  | nil =>
    obtain ⟨-, rfl⟩ := Action.pure_eq_ok.mp h
    exact .refl _
  | cons w ws ih =>
    rw [replay, modifySink, Action.modify_bind_eq_ok] at h
    obtain ⟨_, j₁, h₁, h⟩ := Action.bind_eq_ok.mp h
    exact (loosened_write h₁).trans (ih h)

theorem loosened_writeChunk (h : writeChunk o files j = .ok u j') : Loosened j.space.tree j'.space.tree := by
  rw [writeChunk, Action.get_bind_eq_ok] at h
  exact loosened_replay h

theorem loosened_closeLevels {n : Nat} (h : closeLevels o files n j = .ok u j') :
    Loosened j.space.tree j'.space.tree := by
  induction n generalizing j with
  | zero =>
    obtain ⟨-, rfl⟩ := Action.pure_eq_ok.mp h
    exact .refl _
  | succ n ih =>
    rw [closeLevels] at h
    obtain ⟨_, j₁, h₁, h⟩ := Action.bind_eq_ok.mp h
    rw [modifySink, Action.modify_bind_eq_ok] at h
    exact (loosened_writeChunk h₁).trans (ih (j := { j₁ with sink := j₁.sink.pop }) h)

end Job

namespace Walk

open Loop (Entered)
open Loop.Turn (Continues)

variable {t t' : Tree} {P : NodeId → Prop} {roots rs : List NodeId} {root node p q n m item : NodeId} {r : Run}
  {f g : Frame} {more : List Frame} {w w₀ w₁ w' : Walk} {o : Options} {key : String} {scan scan' : List Position}
  {parents : List NodeId} {u : Unit} {even : Prop} {progress : Progress} {s : Setup}

theorem loosened_completeLevel (h : completeLevel o w = .ok u w') : Loosened w.space.tree w'.space.tree := by
  rcases onSink_ok h with ⟨-, rfl⟩ | ⟨k, j, -, hj, rfl⟩
  · exact .refl _
  · exact Job.loosened_writeChunk hj

theorem loosened_takeSink {k k' : Sink} (h : takeSink o k w = .ok k' w') : Loosened w.space.tree w'.space.tree := by
  unfold takeSink at h
  cases hj : Job.closeAll o w.files ⟨w.space, k⟩ with
  | error e j =>
    simp only [hj] at h
    cases h
  | ok v j =>
    simp only [hj] at h
    cases h
    rw [Job.closeAll, Action.get_bind_eq_ok] at hj
    rw [show (keep j.sink { w with sink := none, space := j.space }).space = j.space by rw [keep_rest]]
    exact Job.loosened_closeLevels hj

theorem loosened_writeText {k k' : Sink} (h : writeText o item k w = .ok k' w') :
    Loosened w.space.tree w'.space.tree := by
  unfold writeText at h
  cases hj : Job.write o w.files item none ⟨w.space, k⟩ with
  | error e j =>
    simp only [hj] at h
    cases h
  | ok v j =>
    simp only [hj] at h
    cases h
    exact Job.loosened_write hj

/-! ## Links are made in the innermost document -/

/-- A new node is put somewhere outside. -/
theorem closed_of_added {cs : List NodeId} {new : Node} {id : NodeId} (hwf : t.WellFormed) (hc : Closed t P)
    (hp : ¬ P p) (h : Added t p cs new id t') : Closed t' P :=
  (h.keeps hc hp).closed hc hwf h.wellFormed

theorem closed_putValue (hwf : t.WellFormed) (hc : Closed t P) (hl : t.Live item) (hout : ¬ P item)
    (value : String) : Closed (putValue t item value) P := by
  cases hv : t.child? item "value" with
  | some child =>
    simp only [putValue, hv]
    exact (Loosened.setValue value).closed hc
  | none =>
    obtain ⟨child, hadd⟩ := added_putValue value hwf hl hv
    exact closed_of_added hwf hc hout hadd

/-- A field is filled and put into the open sink. -/
theorem closed_item (hwf : w.space.tree.WellFormed) (hc : Closed w.space.tree P) (hl : w.space.tree.Live item)
    (hout : ¬ P item) (h₁ : fillItem f key item w = .ok () w₁)
    (h₂ : onSink (fun files => Job.setData o files item) w₁ = .ok u w') : Closed w'.space.tree P := by
  obtain ⟨value, rfl⟩ := fillItem_ok h₁
  have hput := closed_putValue hwf hc hl hout value
  rcases onSink_ok h₂ with ⟨-, rfl⟩ | ⟨k, j, -, hj, rfl⟩
  · exact hput
  · exact (Job.loosened_setData hj).closed hput

/-- A group is gone into. -/
theorem closed_descend {group : NodeId} (hwf : t.WellFormed) (hc : Closed t P) (hp : t.parent? group = some q)
    (hout : ¬ P q) (h : descend t scan key group = .ok (t', scan')) : Closed t' P := by
  rcases descend_ok hwf hp h with ⟨-, rfl, -⟩ | ⟨first, next, -, -, ⟨-, rfl⟩ | ⟨-, hmark⟩⟩
  · exact hc
  · exact hc
  · exact closed_of_added hwf hc hout hmark

/-- A node of the body of a `writer` is visited. -/
theorem closed_renderNode {k k' : Sink} {pos : Position} (hwf : w.space.tree.WellFormed)
    (hb : InBody w.space.tree node (pos :: scan)) (hc : Closed w.space.tree P) (hout : ¬ P node)
    (h : renderNode o f k scan pos w = .ok (k', scan') w') : Closed w'.space.tree P := by
  rw [renderNode, Action.get_bind_eq_ok] at h
  obtain ⟨tag, -, h⟩ := Action.ofExcept_bind_eq_ok.mp h
  obtain ⟨q, hp, hq⟩ := hb pos List.mem_cons_self
  have hqout : ¬ P q := fun hPq => hout (hc.of_under hq.under hPq)
  cases tag with
  | item =>
    obtain ⟨_, w₁, h₁, h⟩ := Action.bind_eq_ok.mp h
    obtain ⟨k₂, w₂, h₂, h⟩ := Action.bind_eq_ok.mp h
    rw [Action.get_bind_eq_ok] at h
    obtain ⟨-, rfl⟩ := Action.pure_eq_ok.mp h
    obtain ⟨value, rfl⟩ := fillItem_ok h₁
    have hput := closed_putValue hwf hc (hwf.live_of_parent hp).1 (fun hP => hqout (hc.up _ _ hP hp)) value
    exact (loosened_writeText h₂).closed hput
  | items =>
    by_cases hch : w.space.tree.hasChildren pos.node = true
    · simp only [hch, if_true] at h
      obtain ⟨⟨t, scan₁⟩, hd, h⟩ := Action.ofExcept_bind_eq_ok.mp h
      obtain ⟨_, w₁, h₁, h⟩ := Action.bind_eq_ok.mp h
      obtain ⟨-, rfl⟩ := Action.pure_eq_ok.mp h
      rw [modifyTree_eq_ok.mp h₁]
      exact closed_descend hwf hc hp hqout hd
    · simp only [hch] at h
      obtain ⟨-, rfl⟩ := Action.pure_eq_ok.mp h
      exact hc
  | nop =>
    obtain ⟨-, rfl⟩ := Action.pure_eq_ok.mp h
    exact hc
  | loop => exact (Action.failAt_eq_ok.mp h).elim
  | document => exact (Action.failAt_eq_ok.mp h).elim
  | writer => exact (Action.failAt_eq_ok.mp h).elim

theorem closed_renderFrom {i : Nat} {k k' : Sink} (hwf : w.space.tree.WellFormed)
    (hw : AtWriter w.space.tree root node) (hb : InBody w.space.tree node scan) (hc : Closed w.space.tree P)
    (hout : ¬ P node) (h : renderFrom o f i k scan w = .ok k' w') : Closed w'.space.tree P := by
  induction i generalizing w k scan with
  | zero =>
    cases scan with
    | nil =>
      obtain ⟨-, rfl⟩ := Action.pure_eq_ok.mp h
      exact hc
    | cons pos scan => exact (Action.fail_eq_ok.mp h).elim
  | succ i ih =>
    cases scan with
    | nil =>
      obtain ⟨-, rfl⟩ := Action.pure_eq_ok.mp h
      exact hc
    | cons pos scan =>
      rw [renderFrom] at h
      obtain ⟨⟨k₁, scan₁⟩, w₁, h₁, h⟩ := Action.bind_eq_ok.mp h
      obtain ⟨hr, hb₁⟩ := rendered_renderNode hwf hw hb h₁
      exact ih hr.step.quiet.wellFormed hr.step.writer hb₁ (closed_renderNode hwf hb hc hout h₁) h

/-- The sink is opened that a `writer` asks for. -/
theorem closed_openSink (hwf : w.space.tree.WellFormed) (hw : AtWriter w.space.tree root node)
    (hc : Closed w.space.tree P) (hout : ¬ P root) (h : openSink o f node w = .ok u w') :
    Closed w'.space.tree P := by
  obtain ⟨p, hp, hi⟩ := hw.parent
  have hnode : ¬ P node := fun hP => hout (hc.of_under (.child hp hi.under) hP)
  rw [openSink, Action.get_bind_eq_ok] at h
  obtain ⟨name, w₁, h₁, h⟩ := Action.bind_eq_ok.mp h
  obtain ⟨k, w₂, h₂, h⟩ := Action.bind_eq_ok.mp h
  have hopened := opened_newSink (Action.locating_eq_ok.mp h₂)
  rw [Action.modify_eq_ok.mp h]
  show Closed w₂.space.tree P
  rw [show w₂.space = w₁.space by rw [hopened.rest]]
  rw [render, Action.get_bind_eq_ok] at h₁
  obtain ⟨k', w₃, h₃, h₁⟩ := Action.bind_eq_ok.mp h₁
  obtain ⟨-, rfl⟩ := Action.pure_eq_ok.mp h₁
  refine closed_renderFrom hwf hw ?_ hc hnode h₃
  intro pos hpos
  split at hpos
  · rename_i first hf
    rw [List.mem_singleton.mp hpos]
    exact ⟨node, hwf.mem_children.mp (List.mem_of_head? hf), .root⟩
  · cases hpos

/-- The loop of a node is entered, and asked for its first run. -/
theorem Visiting.closed_loop (h : Visiting w f more root rs p r n) (hc : Closed w.space.tree P) (hout : ¬ P root)
    (hl : startLoop f r.key n w = .ok u w') : Closed w'.space.tree P := by
  rw [startLoop, Action.get_bind_eq_ok] at hl
  obtain ⟨l, w₁, h₁, hl⟩ := Action.bind_eq_ok.mp hl
  obtain ⟨⟨next, l'⟩, w₂, h₂, hl⟩ := Action.bind_eq_ok.mp hl
  obtain ⟨hat, -, hent, -⟩ := h.entered h₁
  obtain ⟨S, -, rfl, hturned, hstep⟩ := hat.turned h₂
  have hpout : ¬ P p := fun hP => hout (hc.of_under h.running.standing.inner.under hP)
  have hc₁ : Closed w₁.space.tree P := (hent.keeps h.wellFormed h.parent? hc hpout).closed hc h.wellFormed
    hent.wellFormed
  -- the first run begins where the loop stands
  have htree : w₂.space.tree = w₁.space.tree := by
    rw [hturned.tree]
    cases next with
    | true => exact (Continues.firstRun hstep hat.count).1
    | false => exact Loop.Turn.Ends.tree hstep
  rw [← htree] at hc₁
  cases next with
  | true =>
    have hw := modifyFrame_eq_ok.mp hl
    simp only [hturned.frames] at hw
    rw [hw]
    exact hc₁
  | false =>
    obtain ⟨-, rfl⟩ := Action.pure_eq_ok.mp hl
    exact hc₁

/-- What a visit does to a set of whole documents that the innermost one is none of, nor a secondary one that it
    sees. -/
theorem Visiting.closed {v : Visit} (h : Visiting w f more root rs p r n) (hc : Closed w.space.tree P)
    (hout : ¬ P root) (hrs : ∀ r ∈ rs, IsRoot w.space.tree r) (hdocs : ∀ d ∈ documents w, IsRoot w.space.tree d)
    (hsees : f.seesSecondary = true → rs = [] ∧ root ∉ documents w)
    (hunseen : f.seesSecondary = true → ∀ d ∈ documents w, ¬ P d) (hv : Walk.visit o f r.key n w = .ok v w') :
    Closed w'.space.tree P ∧ ∀ e, v = .enter e → ¬ P e.document.root := by
  rw [Walk.visit, Action.get_bind_eq_ok] at hv
  obtain ⟨tag, htag, hv⟩ := Action.ofExcept_bind_eq_ok.mp hv
  have hwf := h.wellFormed
  have hin := h.running.standing.inner
  have hpout : ¬ P p := fun hP => hout (hc.of_under hin.under hP)
  cases tag with
  | item =>
    obtain ⟨_, w₁, h₁, hv⟩ := Action.bind_eq_ok.mp hv
    obtain ⟨_, w₂, h₂, hv⟩ := Action.bind_eq_ok.mp hv
    obtain ⟨rfl, rfl⟩ := Action.pure_eq_ok.mp hv
    have hl := (hwf.live_of_parent h.parent?).1
    exact ⟨closed_item hwf hc hl (fun hP => hpout (hc.up _ _ hP h.parent?)) h₁ h₂, fun e he => by cases he⟩
  | items =>
    obtain ⟨⟨t, scan⟩, hd, hv⟩ := Action.ofExcept_bind_eq_ok.mp hv
    obtain ⟨_, w₁, h₁, hv⟩ := Action.bind_eq_ok.mp hv
    obtain ⟨_, w₂, h₂, hv⟩ := Action.bind_eq_ok.mp hv
    obtain ⟨rfl, rfl⟩ := Action.pure_eq_ok.mp hv
    rw [modifyTree_eq_ok.mp h₁] at h₂
    have hw := modifyFrame_eq_ok.mp h₂
    simp only [h.frames] at hw
    rw [hw]
    exact ⟨closed_descend hwf hc h.parent? hpout hd, fun e he => by cases he⟩
  | loop =>
    obtain ⟨_, w₁, h₁, hv⟩ := Action.bind_eq_ok.mp hv
    obtain ⟨rfl, rfl⟩ := Action.pure_eq_ok.mp hv
    exact ⟨h.closed_loop hc hout h₁, fun e he => by cases he⟩
  | document =>
    obtain ⟨hk, hnew⟩ := keeps_visitImport hwf hc hdocs (fun hsee _ => hunseen hsee) hv
    exact ⟨hk.closed hc hwf (h.around_document hrs hdocs hsees hv).1.wellFormed, hnew⟩
  | writer =>
    have hw := h.atWriter (tagOf_ok htag)
    rw [visitWriter, Action.get_bind_eq_ok] at hv
    cases hk : w.sink with
    | none =>
      simp only [hk] at hv
      obtain ⟨_, w₁, h₁, hv⟩ := Action.bind_eq_ok.mp hv
      obtain ⟨rfl, rfl⟩ := Action.pure_eq_ok.mp hv
      exact ⟨closed_openSink hwf hw hc hout h₁, fun e he => by cases he⟩
    | some k =>
      simp only [hk] at hv
      obtain ⟨k', w₁, h₁, hv⟩ := Action.bind_eq_ok.mp hv
      rw [Action.modify_bind_eq_ok] at hv
      obtain ⟨rfl, rfl⟩ := Action.pure_eq_ok.mp hv
      exact ⟨(loosened_takeSink h₁).closed hc, fun e he => by cases he⟩
  | nop =>
    obtain ⟨rfl, rfl⟩ := Action.pure_eq_ok.mp hv
    exact ⟨hc, fun e he => by cases he⟩

/-- The loops around a run are asked. -/
theorem RunEnded.closed (hrun : RunEnded w f more root p key parents) (hc : Closed w.space.tree P) (hout : ¬ P root)
    (h : closeLoops o parents w = .ok u w') : Closed w'.space.tree P := by
  -- what waits is written up before a loop is asked
  have hasking : ∀ {w : Walk} {f : Frame} {p q : NodeId} {l : Loop} {outer : List Loop} {w₁ : Walk},
      Closed w.space.tree P → Asking o w f more root p q l outer w₁ → Closed w₁.space.tree P := by
    intro w f p q l outer w₁ hc hask
    have hlevel := hask.level
    split at hlevel
    · rw [pushLevel_eq_ok.mp hlevel]
      exact hc
    · exact (loosened_completeLevel hlevel).closed hc
  have hends : ∀ {f : Frame} {l : Loop} {outer : List Loop} {w₁ : Walk} {S : Loop.Turn} {w₂ w₃ : Walk},
      Closed w₁.space.tree P → Turned w₁ f more S w₂ → Loop.Turn.Ends ⟨l, w₁.space.tree, w₁.feedOf f l, f.scan⟩ S →
      dropLoop outer w₂ = .ok () w₃ → Closed w₃.space.tree P := by
    intro f l outer w₁ S w₂ w₃ hc ht he hd
    rw [dropLoop_ok ht hd]
    show Closed w₂.space.tree P
    rw [ht.tree, he.tree]
    exact hc
  refine hrun.closeLoops_induct (P := fun w _ _ _ => Closed w.space.tree P) (Q := fun w => Closed w.space.tree P)
    hc h ?_ ?_ ?_ ?_
  · intro w f p q key parents l outer w₁ S w₂ w₃ _ hc hask hend
    exact hends (hasking hc hask) hend.turned hend.ends hend.dropped
  · intro w f p key parents _ hc _
    exact hc
  · intro w f p q key parents l outer w₁ S w₂ _ hc hask _ hturned hcont
    have hat := hask.atEnd
    have hc₁ := hasking hc hask
    have hpa : w₁.space.tree.parent? l.anchor = some q := by rw [hat.anchor, hat.parent]
    have hq : ¬ P q := fun hP => hout (hc₁.of_under hat.standing.inner.under hP)
    show Closed w₂.space.tree P
    rw [hturned.tree]
    exact (hcont.advanced.keeps hpa hc₁ hq).closed hc₁ hat.wellFormed hcont.advanced.wellFormed
  · intro w f p q key parents l outer w₁ S w₂ w₃ _ hc hask _ hturned he hd _
    exact hends (hasking hc hask) hturned he hd

/-! ## Rounds -/

/-- The root of the innermost document. -/
theorem Coherent.root_unique {root' : NodeId} {rs' : List NodeId} {even' : Prop} (h : Coherent even w (root :: rs))
    (h' : Coherent even' w (root' :: rs')) : root' = root := by
  have hs := h.stack
  have hs' := h'.stack
  cases hf : w.frames with
  | nil =>
    rw [hf] at hs
    cases hs
  | cons f more =>
    rw [hf] at hs hs'
    exact Option.some.inj (hs'.found.symm.trans hs.found)

/-- There are as many documents that are walked as frames. -/
theorem Stack.length_eq {docs : List NodeId} {frames : List Frame} (h : Stack t docs frames roots) :
    frames.length = roots.length := by
  induction h with
  | nil => rfl
  | main => rfl
  | «import» _ _ _ _ _ _ _ _ ih => exact congrArg (· + 1) ih

/-- The change of output that is due is that of a `writer` of the innermost document. -/
theorem Reached.atWriter (h : Reached o s w) (hc : Coherent even w (root :: rs)) (hn : w.rotation = some n) :
    AtWriter w.space.tree root n := by
  cases h with
  | start h =>
    rw [Walk.start, Action.modify_bind_eq_ok] at h
    obtain ⟨d, k, t, -, -, rfl⟩ := enter_ok h
    cases hn
  | @round w₀ _ progress hb h =>
    obtain ⟨roots₀, hc₀⟩ := hb.coherent
    obtain ⟨w₁, h₁, hr⟩ := round_ok h
    obtain ⟨hc₁, -, hrot⟩ := hc₀.rotate h₁
    rcases hr with ⟨-, hr⟩ | ⟨f, more, hf, hr⟩
    · -- the walk ends
      exfalso
      rcases finish_ok hr with ⟨-, -, rfl⟩ | ⟨k, -, -, rfl⟩
      · rw [hrot] at hn
        cases hn
      · rw [keep_rest] at hn
        rw [show w₁.rotation = some n from hn] at hrot
        cases hrot
    have hs := hc₁.stack
    rw [hf] at hs
    obtain ⟨root₁, rs₁, rfl⟩ := hs.roots_cons
    rcases hr with ⟨-, -, hr⟩ | ⟨r, g, ht, ⟨m, hm, hr⟩ | ⟨-, -, hr⟩⟩
    · -- a document ends
      obtain ⟨w₂, -, hd, rfl⟩ := leave_ok hc₁.wellFormed hf hr
      replace hn : w₂.rotation = some n := hn
      rw [hd.rest] at hn
      rw [show w₁.rotation = some n from hn] at hrot
      cases hrot
    · obtain ⟨v, w₂, hv, hr⟩ := Action.bind_eq_ok.mp hr
      obtain ⟨_, w₃, h₃, hr⟩ := Action.bind_eq_ok.mp hr
      obtain ⟨hc₃, -, hfollows⟩ := hc₁.resumed hf ht hrot hm (Action.locating_eq_ok.mp hv) h₃
      cases hfollows with
      | done hno =>
        obtain ⟨-, rfl⟩ := Action.pure_eq_ok.mp hr
        rw [hno] at hn
        cases hn
      | yield hrot' hw _ =>
        obtain ⟨-, rfl⟩ := Action.pure_eq_ok.mp hr
        rw [hrot'] at hn
        cases hn
        rw [← hc.root_unique hc₃]
        exact hw
      | @enter e hno he =>
        obtain ⟨_, w₄, h₄, hr⟩ := Action.bind_eq_ok.mp hr
        obtain ⟨-, rfl⟩ := Action.pure_eq_ok.mp hr
        obtain ⟨d, k, t, -, -, rfl⟩ := enter_ok h₄
        rw [show w₃.rotation = some n from hn] at hno
        cases hno
    · -- loops are asked
      obtain ⟨p, hended⟩ := hc₁.runEnded hf ht
      have hask := asked_closeLoops hended hs.head.2.2.1 hr
      rw [hask.rotation] at hn
      rw [show w₁.rotation = some n from hn] at hrot
      cases hrot

theorem Coherent.documents_rotate (hc : Coherent even w roots) (hr : Walk.rotate o w = .ok u w') :
    documents w' = documents w := by
  rcases hc.rotate_ok hr with ⟨rfl, -⟩ | ⟨n, r, f, more, -, ho⟩
  · rfl
  · rw [ho.rest]
    rfl

/-- The output that is due is opened. -/
theorem Coherent.closed_rotate (hc : Coherent even w (root :: rs))
    (hdue : ∀ n, w.rotation = some n → AtWriter w.space.tree root n) (hP : Closed w.space.tree P) (hout : ¬ P root)
    (hr : Walk.rotate o w = .ok u w') : Closed w'.space.tree P := by
  rw [Walk.rotate, Action.get_bind_eq_ok] at hr
  cases hrot : w.rotation with
  | none =>
    simp only [hrot] at hr
    obtain ⟨-, rfl⟩ := Action.pure_eq_ok.mp hr
    exact hP
  | some n =>
    cases hf : w.frames with
    | nil =>
      simp only [hrot, hf] at hr
      obtain ⟨-, rfl⟩ := Action.pure_eq_ok.mp hr
      exact hP
    | cons f more =>
      simp only [hrot, hf] at hr
      rw [Action.set_bind_eq_ok] at hr
      exact closed_openSink (w := { w with frames := f :: more, rotation := none }) hc.wellFormed (hdue n hrot) hP
        hout hr

/-- A document ends. -/
theorem Coherent.closed_leave (hc : Coherent even w (root :: rs)) (hP : Closed w.space.tree P) (hout : ¬ P root)
    (hf : w.frames = f :: more) (hl : Walk.leave o w = .ok u w') : Closed w'.space.tree P := by
  have hs := hc.stack
  rw [hf] at hs
  obtain ⟨hroot, -, -, howned⟩ := hs.head
  obtain ⟨w₁, h₁, hd, rfl⟩ := leave_ok hc.wellFormed hf hl
  have hP₁ := (loosened_completeLevel h₁).closed hP
  cases ho : f.owned with
  | none => exact hP₁
  | some m =>
    obtain ⟨rfl, -⟩ := howned m ho
    have hwf₁ := hd.tree.wellFormed
    have hl₁ := ((quiet_of_refreshed hc.wellFormed hd.tree).isRoot hroot).live
    exact (hP₁.keeps_release hwf₁ hl₁ hout).closed hP₁ hwf₁ (hwf₁.released hl₁).wellFormed

/-! ## Documents outside -/

/-- What holds between two rounds while the walk is in documents outside the set `P`.  It has gone into them from
    those with the roots `roots`. -/
structure Outside (even : Prop) (P : NodeId → Prop) (docs roots : List NodeId) (w : Walk) : Prop where
  closed : Closed w.space.tree P
  documents : documents w = docs
  walked : ∃ news, Coherent even w (news ++ roots) ∧ ∀ d ∈ news, ¬ P d

/-- Documents around are outside, too. -/
theorem Outside.outward {docs news : List NodeId} (h : Outside even P docs (news ++ roots) w) (hnews : ∀ d ∈ news, ¬ P d) :
    Outside even P docs roots w := by
  obtain ⟨inner, hc, hinner⟩ := h.walked
  refine ⟨h.closed, h.documents, inner ++ news, ?_, fun d hd => ?_⟩
  · rw [List.append_assoc]
    exact hc
  · exact (List.mem_append.mp hd).elim (hinner d) (hnews d)

/-- The innermost document is walked on: what its visits keep closed stays closed, if the documents that they go into
    are outside it. -/
theorem Coherent.outside_advance (hc : Coherent even w (root :: rs)) (hf : w.frames = f :: more)
    (ht : takeRun f = some (r, g)) (hrot : w.rotation = none) (hn : r.next = some n)
    (hvisit : ∀ v w₁, Walk.visit o g r.key n { w with frames := g :: more } = .ok v w₁ →
      Closed w₁.space.tree P ∧ ∀ e, v = .enter e → ¬ P e.document.root)
    (ha : Walk.advance o g r n { w with frames := g :: more } = .ok progress w') :
    Outside even P (documents w) (root :: rs) w' := by
  obtain ⟨v, w₁, h₁, ha⟩ := Action.bind_eq_ok.mp ha
  obtain ⟨_, w₂, h₂, ha⟩ := Action.bind_eq_ok.mp ha
  have hv := Action.locating_eq_ok.mp h₁
  obtain ⟨hP₁, hnew⟩ := hvisit v w₁ hv
  obtain ⟨p, hvisited, -⟩ := hc.visited hf ht hrot hn hv
  obtain ⟨hc₂, hne, hfollows⟩ := hc.resumed hf ht hrot hn hv h₂
  obtain ⟨hrest, -⟩ := hvisited.resume hn h₂
  have hP₂ : Closed w₂.space.tree P := by
    rw [hrest]
    exact hP₁
  have hdocs₂ : documents w₂ = documents w := by
    rw [hrest]
    exact hvisited.steady.docs
  cases hfollows with
  | done _ =>
    obtain ⟨-, rfl⟩ := Action.pure_eq_ok.mp ha
    exact ⟨hP₂, hdocs₂, [], hc₂, fun d hd => nomatch hd⟩
  | yield _ _ _ =>
    obtain ⟨-, rfl⟩ := Action.pure_eq_ok.mp ha
    exact ⟨hP₂, hdocs₂, [], hc₂, fun d hd => nomatch hd⟩
  | @enter e hrot₂ he =>
    obtain ⟨_, w₃, h₃, ha⟩ := Action.bind_eq_ok.mp ha
    obtain ⟨-, rfl⟩ := Action.pure_eq_ok.mp ha
    have hout := hnew e rfl
    have hent := enteredDocument hc₂.wellFormed he.isRoot he.fresh h₃
    refine ⟨?_, hent.steady.docs.trans hdocs₂, [e.document.root], hc₂.entered hne hrot₂ he h₃, fun d hd => ?_⟩
    · exact (keeps_enter hc₂.wellFormed he.isRoot hP₂ hout h₃).closed hP₂ hc₂.wellFormed hent.around.wellFormed
    · rw [List.mem_singleton.mp hd]
      exact hout

/-- A round in a document outside: the walk stays outside.  If the document is the only one that is walked, it may see
    the secondary ones, and these have to be outside, too. -/
theorem Coherent.outside_round (hc : Coherent even w (root :: rs)) (hunseen : rs = [] → ∀ d ∈ documents w, ¬ P d)
    (hdue : ∀ n, w.rotation = some n → AtWriter w.space.tree root n) (hP : Closed w.space.tree P) (hout : ¬ P root)
    (hr : Walk.round o w = .ok progress w') : Outside even P (documents w) rs w' := by
  obtain ⟨w₁, h₁, hr⟩ := round_ok hr
  obtain ⟨hc₁, -, hrot⟩ := hc.rotate h₁
  have hdocs := hc.documents_rotate h₁
  have hP₁ := hc.closed_rotate hdue hP hout h₁
  have hsame : ∀ d ∈ [root], ¬ P d := fun d hd => List.mem_singleton.mp hd ▸ hout
  have hs := hc₁.stack
  rcases hr with ⟨hf, -⟩ | ⟨f, more, hf, hr⟩
  · rw [hf] at hs
    cases hs
  rw [hf] at hs
  rw [← hdocs] at hunseen ⊢
  rcases hr with ⟨ht, -, hr⟩ | ⟨r, g, ht, ⟨n, hn, hr⟩ | ⟨hn, -, hr⟩⟩
  · -- the document ends
    have hc' := hc₁.leave hf ht hrot hr
    refine ⟨hc₁.closed_leave hP₁ hout hf hr, ?_, [], hc', fun d hd => nomatch hd⟩
    obtain ⟨w₂, -, hd, rfl⟩ := leave_ok hc₁.wellFormed hf hr
    show documents w₂ = _
    rw [hd.rest]
    rfl
  · -- a node is visited
    obtain ⟨p, hvisiting, hroots, hsees⟩ := hc₁.aboutToVisit hf ht hn
    have houtside : Outside even P (documents w₁) ([root] ++ rs) w' := hc₁.outside_advance hf ht hrot hn (fun v w₂ hv =>
      hvisiting.closed hP₁ hout hroots hc₁.docs hsees (fun hsee => hunseen (hsees hsee).1) hv) hr
    exact houtside.outward hsame
  · -- loops are asked
    obtain ⟨p, hended⟩ := hc₁.runEnded hf ht
    exact ⟨hended.closed hP₁ hout hr, (asked_closeLoops hended hs.head.2.2.1 hr).steady.docs, [root],
      hc₁.asked hf ht hrot hr, hsame⟩

end Walk

end Stencil
