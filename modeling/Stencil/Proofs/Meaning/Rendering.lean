/-
  Outputs are opened below their `writer`s.

  The name of an output is made by a walk in the body of a `writer`.  That walk fills fields, writes them to a text
  sink, and puts nodes behind groups; all that stands below the `writer` (`beneath_render`).  So opening an output
  changes nothing for what stands around its `writer` (`patched_openSink`), and what has been opened is empty.
-/
import Stencil.Proofs.Meaning.Fields
import Stencil.Proofs.Meaning.Holding
import Stencil.Proofs.Walk.Invariant

set_option autoImplicit false

namespace Stencil.Meaning

open Stencil.Tree (Under Inner)
open Stencil.Walk (putValue AtWriter InBody)

variable {outputs : Bool} {t t' : Tree} {root n m p v : NodeId} {o : Options} {read : FileReader} {w w' : Walk}
  {f : Frame} {scan scan' : List Position}

/-- What stands below a node stands below all nodes above it. -/
theorem Beneath.of_under (hwf : t.WellFormed) (hu : Under t n m) (h : Beneath t m t') : Beneath t n t' := by
  induction hu with
  | self => exact h
  | child hp _ ih => exact ih (h.up hwf hp)

/-! ## Fields -/

/-- A field is filled. -/
theorem beneath_putValue (hwf : t.WellFormed) (hl : t.Live n) (value : String) : Beneath t n (putValue t n value) := by
  cases hc : t.child? n "value" with
  | some child =>
    unfold putValue
    simp only [hc]
    exact beneath_setValue hwf (hwf.mem_children.mp (List.mem_of_find?_eq_some hc)) value
  | none =>
    obtain ⟨v, hadd⟩ := Walk.added_putValue value hwf hl hc
    exact .of_added hl hadd

section

variable {s s' : Workspace} {value before : String}

/-- The value of a field is worked out. -/
theorem beneath_takeChildren {children : List NodeId} (hwf : s.tree.WellFormed)
    (hc : ∀ c ∈ children, s.tree.parent? c = some n)
    (h : children.foldlM (Field.takeChild o read n) before s = .ok value s') : Beneath s.tree n s'.tree := by
  induction children generalizing s before with
  | nil =>
    obtain ⟨-, rfl⟩ := Action.pure_eq_ok.mp h
    exact .refl hwf n
  | cons c cs ih =>
    rw [List.foldlM_cons] at h
    obtain ⟨v, s₁, h₁, h₂⟩ := Action.bind_eq_ok.mp h
    have hpc := hc c List.mem_cons_self
    have hcs : ∀ c' ∈ cs, s.tree.parent? c' = some n := fun c' hc' => hc c' (List.mem_cons_of_mem _ hc')
    rcases Field.takes_takeChild h₁ with he | ⟨-, text, he⟩
    · rw [← he] at hwf hcs ⊢
      exact ih hwf hcs h₂
    · have hb : Beneath s.tree n s₁.tree := he ▸ beneath_setValue hwf hpc text
      refine hb.trans hwf (ih hb.wellFormed (fun c' hc' => ?_) h₂)
      rw [he, hwf.parent?_setValue, hcs c' hc', if_neg]
      exact fun hi => hwf.parent_ne hpc (Option.some.inj hi)

theorem beneath_prepare {place : Option Nat} {written : Field.Written} (hwf : s.tree.WellFormed)
    (h : Field.prepare o read n place s = .ok written s') : Beneath s.tree n s'.tree := by
  unfold Field.prepare at h
  obtain ⟨text, s₁, h₁, h⟩ := Action.bind_eq_ok.mp h
  rw [Field.value, Action.get_bind_eq_ok] at h₁
  have hv : Beneath s.tree n s₁.tree := beneath_takeChildren hwf (fun c hc => hwf.mem_children.mp hc) h₁
  rw [Workspace.modifyTree, Action.modify_bind_eq_ok, Action.get_bind_eq_ok] at h
  refine hv.trans hwf ?_
  have hkept : Beneath s₁.tree n (s₁.tree.modifyComputed n fun c => { c with result := some text }) :=
    .modifyComputed hv.wellFormed fun _ => rfl
  cases place with
  | some k =>
    obtain ⟨l, -, h⟩ := Action.ofExcept_bind_eq_ok.mp h
    obtain ⟨-, rfl⟩ := Action.pure_eq_ok.mp h
    exact hkept
  | none =>
    obtain ⟨place, -, h⟩ := Action.ofExcept_bind_eq_ok.mp h
    obtain ⟨l, -, h⟩ := Action.ofExcept_bind_eq_ok.mp h
    obtain ⟨-, rfl⟩ := Action.pure_eq_ok.mp h
    exact hkept

end

/-- Writing a field changes nothing but what stands below it. -/
theorem beneath_write {files : Files} {place : Option Nat} {j j' : Job} (hwf : j.space.tree.WellFormed)
    (h : Job.write o files n place j = .ok () j') : Beneath j.space.tree n j'.space.tree := by
  rw [Job.write, Action.locating_eq_ok, Action.get_bind_eq_ok] at h
  obtain ⟨written, j₁, h₁, h⟩ := Action.bind_eq_ok.mp h
  obtain ⟨s₁, hp, rfl⟩ := Action.within_eq_ok.mp h₁
  have hb := beneath_prepare hwf hp
  rw [Job.modifySink, Action.modify_bind_eq_ok] at h
  obtain ⟨s₂, hr, rfl⟩ := Action.within_eq_ok.mp h
  obtain ⟨s₃, g, hrecord, hg, htree⟩ := record_ok (n := n) written.layout s₁
  rw [hrecord] at hr
  cases hr
  refine hb.trans hwf ?_
  show Beneath s₁.tree n s₂.tree
  rw [htree]
  exact .modifyComputed hb.wellFormed hg

/-- Putting a field into a sink changes nothing but what stands below it. -/
theorem beneath_setData {files : Files} {j j' : Job} (hwf : j.space.tree.WellFormed)
    (h : Job.setData o files n j = .ok () j') : Beneath j.space.tree n j'.space.tree := by
  rw [Job.setData, Action.get_bind_eq_ok, Action.get_bind_eq_ok, Job.modifySink, Action.modify_bind_eq_ok] at h
  obtain ⟨_, j₁, h₁, h⟩ := Action.bind_eq_ok.mp h
  have hb := beneath_write (j := { j with sink := j.sink.flush }) hwf h₁
  split at h
  · rw [Action.get_bind_eq_ok, Action.get_bind_eq_ok] at h
    cases hl : j₁.sink.levels with
    | nil =>
      simp only [hl] at h
      exact (Action.fail_eq_ok.mp h).elim
    | cons level levels =>
      simp only [hl] at h
      rw [Action.modify_eq_ok.mp h]
      exact hb
  · obtain ⟨-, rfl⟩ := Action.pure_eq_ok.mp h
    exact hb

/-! ## The body of a `writer` -/

/-- A field in the body of a `writer` is filled and written to a text sink. -/
theorem beneath_renderItem {s s' : Sink} {key : String} {w₁ : Walk} (hwf : w.space.tree.WellFormed)
    (hp : w.space.tree.parent? n = some p) (h₁ : Walk.fillItem f key n w = .ok () w₁)
    (h₂ : Walk.writeText o n s w₁ = .ok s' w') : Beneath w.space.tree n w'.space.tree := by
  obtain ⟨value, rfl⟩ := Walk.fillItem_ok h₁
  have hb := beneath_putValue hwf (hwf.live_of_parent hp).1 value
  unfold Walk.writeText at h₂
  dsimp only at h₂
  cases hj : Job.write o w.files n none ⟨{ w.space with tree := putValue w.space.tree n value }, s⟩ with
  | error e j =>
    rw [hj] at h₂
    cases h₂
  | ok u j =>
    rw [hj] at h₂
    cases h₂
    exact hb.trans hwf (beneath_write hb.wellFormed hj)

/-- One node of the body of a `writer` is visited. -/
theorem beneath_renderNode {s s' : Sink} {pos : Position} (hwf : w.space.tree.WellFormed)
    (hb : InBody w.space.tree n (pos :: scan)) (h : Walk.renderNode o f s scan pos w = .ok (s', scan') w') :
    Beneath w.space.tree n w'.space.tree := by
  rw [Walk.renderNode, Action.get_bind_eq_ok] at h
  obtain ⟨tag, htag, h⟩ := Action.ofExcept_bind_eq_ok.mp h
  obtain ⟨q, hp, hq⟩ := hb pos List.mem_cons_self
  cases tag with
  | item =>
    obtain ⟨_, w₁, h₁, h⟩ := Action.bind_eq_ok.mp h
    obtain ⟨s₂, w₂, h₂, h⟩ := Action.bind_eq_ok.mp h
    rw [Action.get_bind_eq_ok] at h
    obtain ⟨-, rfl⟩ := Action.pure_eq_ok.mp h
    exact .of_under hwf (.child hp hq.under) (beneath_renderItem hwf hp h₁ h₂)
  | items =>
    by_cases hc : w.space.tree.hasChildren pos.node = true
    · simp only [hc, if_true] at h
      obtain ⟨⟨t, scan₁⟩, hd, h⟩ := Action.ofExcept_bind_eq_ok.mp h
      dsimp only at h
      obtain ⟨_, w₁, h₁, h⟩ := Action.bind_eq_ok.mp h
      obtain ⟨-, rfl⟩ := Action.pure_eq_ok.mp h
      rw [Walk.modifyTree_eq_ok.mp h₁]
      rcases Walk.descend_ok hwf hp hd with ⟨-, rfl, -⟩ | ⟨first, next, -, -, ⟨-, rfl⟩ | ⟨-, hm⟩⟩
      · exact .refl hwf n
      · exact .refl hwf n
      · exact .of_under hwf hq.under (.of_added (hwf.live_of_parent hp).2 hm)
    · simp only [hc] at h
      obtain ⟨-, rfl⟩ := Action.pure_eq_ok.mp h
      exact .refl hwf n
  | nop =>
    obtain ⟨-, rfl⟩ := Action.pure_eq_ok.mp h
    exact .refl hwf n
  | loop => exact (Action.failAt_eq_ok.mp h).elim
  | document => exact (Action.failAt_eq_ok.mp h).elim
  | writer => exact (Action.failAt_eq_ok.mp h).elim

theorem beneath_renderFrom {k : Nat} {s s' : Sink} (hwf : w.space.tree.WellFormed)
    (hw : AtWriter w.space.tree root n) (hb : InBody w.space.tree n scan)
    (h : Walk.renderFrom o f k s scan w = .ok s' w') : Beneath w.space.tree n w'.space.tree := by
  induction k generalizing w s scan with
  | zero =>
    cases scan with
    | nil =>
      obtain ⟨-, rfl⟩ := Action.pure_eq_ok.mp h
      exact .refl hwf n
    | cons pos scan => exact (Action.fail_eq_ok.mp h).elim
  | succ k ih =>
    cases scan with
    | nil =>
      obtain ⟨-, rfl⟩ := Action.pure_eq_ok.mp h
      exact .refl hwf n
    | cons pos scan =>
      unfold Walk.renderFrom at h
      obtain ⟨⟨s₁, scan₁⟩, w₁, h₁, h⟩ := Action.bind_eq_ok.mp h
      obtain ⟨hr, hb₁⟩ := Walk.rendered_renderNode hwf hw hb h₁
      exact (beneath_renderNode hwf hb h₁).trans hwf (ih hr.step.quiet.wellFormed hr.step.writer hb₁ h)

/-- Making the name of an output changes nothing but what stands below its `writer`. -/
theorem beneath_render {name : String} (hwf : w.space.tree.WellFormed) (hw : AtWriter w.space.tree root n)
    (h : Walk.render o f n w = .ok name w') : Beneath w.space.tree n w'.space.tree := by
  rw [Walk.render, Action.get_bind_eq_ok] at h
  obtain ⟨s, w₁, h₁, h⟩ := Action.bind_eq_ok.mp h
  obtain ⟨-, rfl⟩ := Action.pure_eq_ok.mp h
  refine beneath_renderFrom hwf hw ?_ h₁
  intro pos hpos
  split at hpos
  · rename_i first hf
    rw [List.mem_singleton.mp hpos]
    exact ⟨n, hwf.mem_children.mp (List.mem_of_head? hf), .root⟩
  · cases hpos

/-! ## Outputs -/

/-- There is nothing in a new sink, and nothing waits in it. -/
theorem still_of_newSink {kind name : String} {s : Sink} (h : Walk.newSink o kind name w = .ok s w') :
    s.Still ∧ s.toBytes = [] := by
  rw [Walk.newSink, Action.get_bind_eq_ok] at h
  have hcollect : (do
      set (Walk.keep (Sink.collecting name) w)
      return Sink.collecting name : Action Walk Sink) w = .ok s w' → s.Still ∧ s.toBytes = [] := by
    intro hx
    rw [Action.set_bind_eq_ok] at hx
    obtain ⟨rfl, -⟩ := Action.pure_eq_ok.mp hx
    exact ⟨Sink.still_of_empty, rfl⟩
  generalize w.outputs.store = store at h
  split at h
  · exact hcollect h
  · exact hcollect h
  · dsimp only at h
    cases hf : w.files.write (o.resolve name none) [] with
    | error e =>
      simp only [hf] at h
      exact (Action.fail_eq_ok.mp h).elim
    | ok files =>
      simp only [hf] at h
      rw [Action.set_bind_eq_ok] at h
      obtain ⟨rfl, -⟩ := Action.pure_eq_ok.mp h
      exact ⟨Sink.still_of_empty, rfl⟩
  · exact (Action.fail_eq_ok.mp h).elim

/-- A `writer` stands for an element that is nothing, whatever stands below it. -/
theorem mirrors_writer (hname : t.name n = "writer") (e : Element) :
    Mirrors outputs t n e ↔ outputs = true ∧ e.name = "nop" := by
  obtain ⟨name, attrs, text, computed, cs⟩ := e
  rw [Mirrors, hname]
  constructor
  · rintro ⟨⟨rfl, -⟩ | ⟨hout, -, hn⟩, hc⟩
    · exact hc.elim
    · exact ⟨hout, hn⟩
  · rintro ⟨hout, rfl⟩
    exact ⟨.inr ⟨hout, rfl, rfl⟩, trivial⟩

/-- Opening an output changes nothing but what stands below its `writer`. -/
theorem beneath_openSink (hwf : w.space.tree.WellFormed) (hw : AtWriter w.space.tree root n)
    (h : Walk.openSink o f n w = .ok () w') : Beneath w.space.tree n w'.space.tree := by
  rw [Walk.openSink, Action.get_bind_eq_ok] at h
  obtain ⟨name, w₁, h₁, h⟩ := Action.bind_eq_ok.mp h
  obtain ⟨s, w₂, h₂, h⟩ := Action.bind_eq_ok.mp h
  have htree : w₂.space.tree = w₁.space.tree := by
    rw [(Walk.opened_newSink (Action.locating_eq_ok.mp h₂)).rest]
  rw [Action.modify_eq_ok.mp h]
  show Beneath w.space.tree n w₂.space.tree
  rw [htree]
  exact beneath_render hwf hw h₁

/-- An output is opened: what stands around its `writer` stands for what it did, and the output is empty. -/
theorem patched_openSink (hwf : w.space.tree.WellFormed) (hw : AtWriter w.space.tree root n)
    (hp : w.space.tree.parent? n = some p) (hplaced : w.space.tree.name p = "item" → w.space.tree.parent? p = none)
    (h : Walk.openSink o f n w = .ok () w') :
    Patched outputs w.space.tree n w'.space.tree ∧ ∃ k, Walk.Holding w' k [] := by
  have hb := beneath_openSink hwf hw h
  rw [Walk.openSink, Action.get_bind_eq_ok] at h
  obtain ⟨name, w₁, h₁, h⟩ := Action.bind_eq_ok.mp h
  obtain ⟨s, w₂, h₂, h⟩ := Action.bind_eq_ok.mp h
  have hnew := Action.locating_eq_ok.mp h₂
  rw [Action.modify_eq_ok.mp h] at hb ⊢
  refine ⟨⟨hb, fun q hq => ?_, fun e he => ?_⟩, Nat.repeat Sink.push w₂.depth s, _, rfl, ?_⟩
  · rw [hp] at hq
    cases hq
    exact hplaced
  · have hname : w₂.space.tree.name n = "writer" := hb.name.trans hw.name
    exact (mirrors_writer hname e).mpr ((mirrors_writer hw.name e).mp he)
  · obtain ⟨hstill, hnone⟩ := still_of_newSink hnew
    obtain ⟨hpushed, hstream⟩ := hstill.pushes w₂.depth
    refine ⟨hpushed, ?_, .refl _⟩
    unfold Sink.toBytes at hnone ⊢
    rw [hstream]
    exact hnone

end Stencil.Meaning
