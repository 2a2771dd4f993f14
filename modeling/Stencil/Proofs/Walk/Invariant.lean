/-
  What holds between two rounds of a walk.

  Each document that is being walked has a root of its own, below which its walk stands (`Stack`); the
  secondary documents wait as roots, too; and the sink has as many levels as documents and loops ask for
  (`Leveled`, `levelsOf`).  `Coherent` puts this together.

  A step changes the document of one root at most.  The other documents keep their trunks, and with them
  the places where their walks stand (`Stack.transfer`).
-/
import Mathlib.Algebra.GroupWithZero.Nat
import Stencil.Proofs.Loop
import Stencil.Proofs.Walk.Writer

set_option autoImplicit false

namespace Stencil.Walk

open Stencil.Tree (Under Inner KeepsShape Closed Keeps Refreshed)

variable {t t' : Tree} {docs roots rs : List NodeId} {r root : NodeId} {f : Frame}
  {fs frames : List Frame} {w w' : Walk} {o : Options} {k : Nat} {u : Unit} {even : Prop}

/-! ## Documents -/

/-- The root of the document of a frame: the one that is given up with the frame, or else that of the main
    document, which is the node 0, or that of a secondary document. -/
def rootOf (docs : List NodeId) (f : Frame) : Option NodeId :=
  match f.owned, f.source with
  | some r, _ => some r
  | none, .main => some 0
  | none, .secondary i => docs[i]?

/-- A frame of the same document. -/
structure SameFrame (f g : Frame) : Prop where
  source : g.source = f.source
  sees : g.seesSecondary = f.seesSecondary
  owned : g.owned = f.owned

theorem SameFrame.refl (f : Frame) : SameFrame f f := ⟨rfl, rfl, rfl⟩

theorem SameFrame.trans {f₁ f₂ : Frame} (h : SameFrame f f₁) (h' : SameFrame f₁ f₂) :
    SameFrame f f₂ :=
  ⟨h'.source.trans h.source, h'.sees.trans h.sees, h'.owned.trans h.owned⟩

theorem SameFrame.rootOf {g : Frame} (h : SameFrame f g) (docs : List NodeId) :
    rootOf docs g = rootOf docs f := by
  unfold Walk.rootOf
  rw [h.source, h.owned]

/-- The documents that are being walked, each below a root of its own.  Only the main document, which is
    never given up, may see the secondary documents. -/
inductive Stack (t : Tree) (docs : List NodeId) : List Frame → List NodeId → Prop
  | nil : Stack t docs [] []
  | main {f : Frame} {r : NodeId} (isRoot : IsRoot t r) (placed : Placed t r f)
      (found : rootOf docs f = some r) (owned : f.owned = none) (apart : r ∉ docs) :
      Stack t docs [f] [r]
  | import {f : Frame} {r : NodeId} {fs : List Frame} {rs : List NodeId}
      (below : Stack t docs fs rs) (nonempty : fs ≠ []) (isRoot : IsRoot t r)
      (placed : Placed t r f) (found : rootOf docs f = some r) (fresh : r ∉ rs)
      (sees : f.seesSecondary = false)
      (owned : ∀ r', f.owned = some r' → r' = r ∧ r ∉ docs) : Stack t docs (f :: fs) (r :: rs)

theorem Stack.isRoot (h : Stack t docs frames roots) (hr : r ∈ roots) : IsRoot t r := by
  induction h with
  | nil => cases hr
  | main hroot => rw [List.mem_singleton.mp hr]; exact hroot
  | «import» _ _ hroot _ _ _ _ _ ih =>
    rcases List.mem_cons.mp hr with rfl | hr
    · exact hroot
    · exact ih hr

/-- Documents whose trunks are kept are walked as before. -/
theorem Stack.transfer (hwf : t.WellFormed) (hwf' : t'.WellFormed)
    (hk : ∀ r ∈ roots, KeepsShape (Inner t r) t t') (h : Stack t docs frames roots) :
    Stack t' docs frames roots := by
  induction h with
  | nil => exact .nil
  | main hroot hp hr ho ha =>
    have hk' := hk _ List.mem_cons_self
    exact .main (hroot.of_keepsShape hk') (hp.of_keepsShape hwf hwf' hroot.live hroot.parent? hk') hr
      ho ha
  | «import» _ hne hroot hp hr hf hs ho ih =>
    have hk' := hk _ List.mem_cons_self
    exact .import (ih fun r hr => hk r (List.mem_cons_of_mem _ hr)) hne (hroot.of_keepsShape hk')
      (hp.of_keepsShape hwf hwf' hroot.live hroot.parent? hk') hr hf hs ho

theorem Stack.roots_cons (h : Stack t docs (f :: fs) roots) : ∃ r rs, roots = r :: rs := by
  cases h <;> exact ⟨_, _, rfl⟩

theorem Stack.tail (h : Stack t docs (f :: fs) (r :: rs)) : Stack t docs fs rs := by
  cases h with
  | main => exact .nil
  | «import» hb => exact hb

/-- The innermost document, with what the other ones must know about it. -/
theorem Stack.head (h : Stack t docs (f :: fs) (r :: rs)) :
    IsRoot t r ∧ Placed t r f ∧ r ∉ rs ∧ ∀ r', f.owned = some r' → r' = r ∧ r ∉ docs := by
  cases h with
  | main hroot hp _ ho =>
    refine ⟨hroot, hp, List.not_mem_nil, fun r' hr' => ?_⟩
    rw [ho] at hr'
    cases hr'
  | «import» _ _ hroot hp _ hf _ ho => exact ⟨hroot, hp, hf, ho⟩

theorem Stack.found (h : Stack t docs (f :: fs) (r :: rs)) : rootOf docs f = some r := by
  cases h <;> assumption

/-- A document that may see the secondary documents is the only one that is walked. -/
theorem Stack.main_of_sees (h : Stack t docs (f :: fs) (r :: rs)) (hs : f.seesSecondary = true) :
    fs = [] ∧ rs = [] ∧ r ∉ docs := by
  cases h with
  | main _ _ _ _ ha => exact ⟨rfl, rfl, ha⟩
  | «import» _ _ _ _ _ _ hn =>
    rw [hn] at hs
    cases hs

/-! ## Changes in one document -/

/-- A change that leaves the documents with the roots `rs` alone. -/
structure Around (rs : List NodeId) (t t' : Tree) : Prop where
  wellFormed : t'.WellFormed
  isRoot : ∀ r, IsRoot t r → IsRoot t' r
  trunk : ∀ r ∈ rs, IsRoot t r → KeepsShape (Inner t r) t t'
  names : ∀ r ∈ rs, IsRoot t r → ∀ p, Inner t r p → ∀ c ∈ t.children p, t'.name c = t.name c
  attrs : ∀ r ∈ rs, IsRoot t r → ∀ p, Inner t r p → ∀ c ∈ t.children p, (t'.node c).attrs = (t.node c).attrs
  ids : ∀ r ∈ rs, IsRoot t r → ∀ p, Inner t r p → ∀ c ∈ t.children p,
    (t'.computed c).repeatId = (t.computed c).repeatId

namespace Around

variable {t₁ : Tree}

theorem trans (h : Around rs t t₁) (h' : Around rs t₁ t') : Around rs t t' where
  wellFormed := h'.wellFormed
  isRoot := fun r hr => h'.isRoot r (h.isRoot r hr)
  trunk := by
    intro r hm hr n hn
    have hk := h.trunk r hm hr
    have hk' := h'.trunk r hm (h.isRoot r hr)
    exact ⟨(hk' n (hn.of_keepsShape hk)).1, (hk' n (hn.of_keepsShape hk)).2.trans (hk n hn).2⟩
  names := by
    intro r hm hr p hp c hc
    have hk := h.trunk r hm hr
    have hc' : c ∈ t₁.children p := by
      rw [hk.children hp]
      exact hc
    exact (h'.names r hm (h.isRoot r hr) p (hp.of_keepsShape hk) c hc').trans (h.names r hm hr p hp c hc)
  attrs := by
    intro r hm hr p hp c hc
    have hk := h.trunk r hm hr
    have hc' : c ∈ t₁.children p := by
      rw [hk.children hp]
      exact hc
    exact (h'.attrs r hm (h.isRoot r hr) p (hp.of_keepsShape hk) c hc').trans (h.attrs r hm hr p hp c hc)
  ids := by
    intro r hm hr p hp c hc
    have hk := h.trunk r hm hr
    have hc' : c ∈ t₁.children p := by
      rw [hk.children hp]
      exact hc
    exact (h'.ids r hm (h.isRoot r hr) p (hp.of_keepsShape hk) c hc').trans (h.ids r hm hr p hp c hc)

theorem mono {ss : List NodeId} (h : Around rs t t') (hsub : ∀ r ∈ ss, r ∈ rs) : Around ss t t' :=
  ⟨h.wellFormed, h.isRoot, fun r hr => h.trunk r (hsub r hr), fun r hr => h.names r (hsub r hr),
    fun r hr => h.attrs r (hsub r hr), fun r hr => h.ids r (hsub r hr)⟩

/-- A change that keeps every closed set without `root` leaves the documents alone that have other
    roots. -/
theorem of_keeps (hwf : t.WellFormed) (hwf' : t'.WellFormed) (hfresh : root ∉ rs)
    (hr : t.parent? root = none) (hroot : ∀ r, IsRoot t r → IsRoot t' r)
    (h : ∀ P, Closed t P → ¬ P root → Keeps P t t') : Around rs t t' where
  wellFormed := hwf'
  isRoot := hroot
  trunk := by
    intro r hm hir
    have hne : root ≠ r := fun he => hfresh (he ▸ hm)
    exact (h _ (Tree.closed_document hwf hir.live hir.parent?) (Tree.not_under_root hr hne)).keepsShape
      fun _ hn => hn.under
  names := by
    intro r hm hir p hp c hc
    have hne : root ≠ r := fun he => hfresh (he ▸ hm)
    exact (h _ (Tree.closed_document hwf hir.live hir.parent?) (Tree.not_under_root hr hne)).name
      (.child (hwf.mem_children.mp hc) hp.under)
  attrs := by
    intro r hm hir p hp c hc
    have hne : root ≠ r := fun he => hfresh (he ▸ hm)
    rw [(h _ (Tree.closed_document hwf hir.live hir.parent?) (Tree.not_under_root hr hne) c
      (.child (hwf.mem_children.mp hc) hp.under)).2]
  ids := by
    intro r hm hir p hp c hc
    have hne : root ≠ r := fun he => hfresh (he ▸ hm)
    unfold Tree.computed
    rw [(h _ (Tree.closed_document hwf hir.live hir.parent?) (Tree.not_under_root hr hne) c
      (.child (hwf.mem_children.mp hc) hp.under)).2]

end Around

theorem Quiet.around (h : Quiet t t') (hwf : t.WellFormed) : Around rs t t' :=
  ⟨h.wellFormed, fun _ hr => h.isRoot hr, fun r _ hr => h.shape r hr,
    fun _ _ _ _ _ _ hc => h.name _ (hwf.live_of_parent (hwf.mem_children.mp hc)).1,
    fun _ _ _ _ _ _ hc => h.attrs _ (hwf.live_of_parent (hwf.mem_children.mp hc)).1,
    fun _ _ _ _ _ _ hc => h.repeatId _ (hwf.live_of_parent (hwf.mem_children.mp hc)).1⟩

/-- The innermost document is walked on. -/
theorem Stack.replace {g : Frame} (hwf : t.WellFormed) (ha : Around rs t t')
    (h : Stack t docs (f :: fs) (r :: rs)) (hp : Placed t' r g) (hs : SameFrame f g) :
    Stack t' docs (g :: fs) (r :: rs) := by
  cases h with
  | main hroot _ hr howned hapart =>
    exact .main (ha.isRoot r hroot) hp ((hs.rootOf docs).trans hr) (hs.owned.trans howned) hapart
  | «import» below hne hroot _ hr hfresh hsees howned =>
    have hbelow : Stack t' docs fs rs :=
      below.transfer hwf ha.wellFormed fun r hm => ha.trunk r hm (below.isRoot hm)
    exact .import hbelow hne (ha.isRoot r hroot) hp ((hs.rootOf docs).trans hr) hfresh
      (hs.sees.trans hsees) fun r' hr' => howned r' (hs.owned ▸ hr')

/-- The roots of the secondary documents. -/
def documents (w : Walk) : List NodeId := w.secondary.entries.map CombinedEntry.root

/-- What no step of a round changes: the secondary documents, and whether the walk is over. -/
structure Steady (w w' : Walk) : Prop where
  docs : documents w' = documents w
  phase : w'.phase = w.phase

theorem Steady.trans {w₁ : Walk} (h : Steady w w₁) (h' : Steady w₁ w') : Steady w w' :=
  ⟨h'.docs.trans h.docs, h'.phase.trans h.phase⟩

/-! ## Levels -/

/-- The number of loops that have started a second run. -/
def repeating (loops : List Loop) : Nat := (loops.filter fun l => 2 ≤ l.count).length

/-- The number of levels that documents ask for: one each, and one for each loop from its second run
    on. -/
def levelsOf (frames : List Frame) : Nat :=
  frames.length + (frames.map fun f => repeating f.loops).sum

theorem levelsOf_cons (f : Frame) (fs : List Frame) :
    levelsOf (f :: fs) = levelsOf fs + repeating f.loops + 1 := by
  unfold levelsOf
  simp only [List.length_cons, List.map_cons, List.sum_cons]
  omega

/-- The walk counts `k` levels, and so many has the sink that is open, if it had none when the walk began:
    `even` says that. -/
structure Leveled (even : Prop) (w : Walk) (k : Nat) : Prop where
  depth : w.depth = k
  sink : even → ∀ s, w.sink = some s → s.depth = k

theorem Leveled.of_eq (h : Leveled even w k) (hd : w'.depth = w.depth) (hs : w'.sink = w.sink) :
    Leveled even w' k :=
  ⟨hd.trans h.depth, fun he s hs' => h.sink he s (hs ▸ hs')⟩

theorem Leveled.push (h : Leveled even w k) :
    Leveled even { w with sink := w.sink.map Sink.push, depth := w.depth + 1 } (k + 1) where
  depth := congrArg (· + 1) h.depth
  sink := by
    intro he s hs
    obtain ⟨s', hs', rfl⟩ := Option.map_eq_some_iff.mp hs
    rw [Sink.depth_push, h.sink he s' hs']

theorem Leveled.pop (h : Leveled even w (k + 1)) :
    Leveled even { w with sink := w.sink.map Sink.pop, depth := w.depth - 1 } k where
  depth := by rw [h.depth]; rfl
  sink := by
    intro he s hs
    obtain ⟨s', hs', rfl⟩ := Option.map_eq_some_iff.mp hs
    have := h.sink he s' hs'
    show s'.levels.tail.length = k
    rw [List.length_tail, show s'.levels.length = k + 1 from this]
    rfl

/-- What completing the innermost level does to a walk. -/
structure LevelDone (w w' : Walk) : Prop where
  rest : w' = { w with space := w'.space, sink := w'.sink }
  tree : Refreshed w.space.tree w'.space.tree
  leveled : ∀ even k, Leveled even w k → Leveled even w' k

theorem levelDone (hwf : w.space.tree.WellFormed) (h : completeLevel o w = .ok u w') :
    LevelDone w w' := by
  rcases onSink_ok h with ⟨hs, rfl⟩ | ⟨s, j, hs, hj, rfl⟩
  · exact ⟨rfl, .refl hwf, fun _ _ hk => hk⟩
  · have hc := Job.completed_writeChunk hwf hj
    refine ⟨rfl, hc.tree, fun even k hk => ⟨hk.depth, fun heven s' hs' => ?_⟩⟩
    cases hs'
    rw [← hk.sink heven s hs]
    show j.sink.levels.length = s.levels.length
    rw [hc.levels]
    cases s.levels <;> rfl

/-! ## The invariant -/

/-- What holds between two rounds. -/
structure Coherent (even : Prop) (w : Walk) (roots : List NodeId) : Prop where
  wellFormed : w.space.tree.WellFormed
  stack : Stack w.space.tree (documents w) w.frames roots
  docs : ∀ d ∈ documents w, IsRoot w.space.tree d
  rotation : ∀ n, w.rotation = some n → w.sink = none ∧ ∃ r ∈ roots, AtWriter w.space.tree r n
  leveled : Leveled even w (levelsOf w.frames)
  phase : w.phase = .running

/-! ## Outputs are opened -/

theorem flush_push (s : Sink) : s.push.flush = s.flush.push := by
  obtain ⟨name, stream, levels, target⟩ := s
  cases target <;> rfl

theorem flush_repeat_push (n : Nat) (s : Sink) :
    (Nat.repeat Sink.push n s).flush = Nat.repeat Sink.push n s.flush := by
  induction n with
  | zero => rfl
  | succ n ih =>
    show (Nat.repeat Sink.push n s).push.flush = (Nat.repeat Sink.push n s.flush).push
    rw [flush_push, ih]

theorem levels_repeat_push (n : Nat) (s : Sink) :
    (Nat.repeat Sink.push n s).levels = List.replicate n [] ++ s.levels := by
  induction n with
  | zero => rfl
  | succ n ih =>
    show [] :: (Nat.repeat Sink.push n s).levels = _
    rw [ih]
    rfl

theorem keep_rest (s : Sink) (w : Walk) :
    keep s w = { w with files := (keep s w).files, outputs := (keep s w).outputs } := by
  unfold keep
  split
  · rfl
  · rfl
  · split <;> rfl

/-- What a new sink is, and what making it does to a walk. -/
structure Opened (w : Walk) (s : Sink) (w' : Walk) : Prop where
  rest : w' = { w with files := w'.files, outputs := w'.outputs }
  levels : s.levels = []
  flushed : s.flush = s

theorem opened_newSink {kind name : String} {s : Sink} (h : newSink o kind name w = .ok s w') :
    Opened w s w' := by
  rw [newSink, Action.get_bind_eq_ok] at h
  have hcollect : (do
      set (keep (Sink.collecting name) w)
      return Sink.collecting name : Action Walk Sink) w = .ok s w' → Opened w s w' := by
    intro hx
    rw [Action.set_bind_eq_ok] at hx
    obtain ⟨rfl, rfl⟩ := Action.pure_eq_ok.mp hx
    exact ⟨keep_rest _ _, rfl, rfl⟩
  generalize w.outputs.store = store at h
  split at h
  · exact hcollect h
  · exact hcollect h
  · dsimp only at h
    cases hf : w.files.write (o.resolve name none) [] with
    | error e =>
      simp only [hf] at h
      exact (Action.fail_eq_ok.mp h).elim
    | ok files =>
      simp only [hf] at h
      rw [Action.set_bind_eq_ok] at h
      obtain ⟨rfl, rfl⟩ := Action.pure_eq_ok.mp h
      exact ⟨rfl, rfl, rfl⟩
  · exact (Action.fail_eq_ok.mp h).elim

/-- What opening the sink of a `writer` does to a walk. -/
structure SinkOpened (root node : NodeId) (w w' : Walk) : Prop where
  rest : w' = { w with space := w'.space, files := w'.files, outputs := w'.outputs, sink := w'.sink }
  step : BodyStep w.space.tree root node w'.space.tree
  sink : ∃ s, w'.sink = some s ∧ s.levels = List.replicate w.depth [] ∧ s.flush = s

theorem sinkOpened {node : NodeId} (hwf : w.space.tree.WellFormed)
    (hw : AtWriter w.space.tree root node) (h : openSink o f node w = .ok u w') :
    SinkOpened root node w w' := by
  rw [openSink, Action.get_bind_eq_ok] at h
  obtain ⟨name, w₁, h₁, h⟩ := Action.bind_eq_ok.mp h
  obtain ⟨s, w₂, h₂, h⟩ := Action.bind_eq_ok.mp h
  have hr := rendered_render hwf hw h₁
  have ho := opened_newSink (Action.locating_eq_ok.mp h₂)
  rw [Action.modify_eq_ok.mp h]
  have hdepth : w₂.depth = w.depth := by rw [ho.rest, hr.rest]
  have hspace : w₂.space = w₁.space := by rw [ho.rest]
  refine ⟨?_, ?_, _, rfl, ?_, ?_⟩
  · rw [ho.rest, hr.rest]
  · show BodyStep w.space.tree root node w₂.space.tree
    rw [hspace]
    exact hr.step
  · rw [levels_repeat_push, ho.levels, hdepth, List.append_nil]
  · rw [flush_repeat_push, ho.flushed]

theorem SinkOpened.leveled {node : NodeId} (h : SinkOpened root node w w') (hk : Leveled even w k) :
    Leveled even w' k := by
  obtain ⟨s, hs, hl, -⟩ := h.sink
  refine ⟨?_, fun _ s' hs' => ?_⟩
  · rw [h.rest]
    exact hk.depth
  · rw [hs] at hs'
    cases hs'
    show s.levels.length = k
    rw [hl, List.length_replicate, hk.depth]

end Stencil.Walk
