/-
  Loops that put a copy behind themselves for each further run.

  The copies of a loop stand in a row behind its node, and nothing but their mark, the number of the loop, tells them from
  what follows.  Between two calls the body of the current run is worked on, and may change as it likes, loops in it
  with copies of their own included (`AtWork`).  A call adds one copy at the end of the row and touches nothing else,
  so the row keeps together (`InRow`), and the loop that is entered again finds the copies, and no more, and drops them.
-/
import Mathlib.Data.List.Basic
import Stencil.Proofs.Loop.Calls
import Stencil.Proofs.Tree.History
import Stencil.Proofs.Walk.Copied

set_option autoImplicit false

namespace Stencil.Loop

open Stencil.Tree (Under shape)

variable {t t' : Tree} {p a a' n c anchor : NodeId} {before after front : List NodeId} {even : Prop}

/-! ## Marks -/

/-- What the copies of a loop have in common. -/
def mark (t : Tree) (n : NodeId) := (t.name n, (t.node n).attrs, (t.computed n).repeatId)

/-- The shape of a node, without what is in the node. -/
def husk (t : Tree) (n : NodeId) : Node := { t.shape n with children := [] }

theorem mark_of_husk (h : husk t' n = husk t n) : mark t' n = mark t n := by
  show ((husk t' n).name, (husk t' n).attrs, (husk t' n).computed.repeatId) = _
  rw [h]
  rfl

theorem seq_of_husk (h : husk t' n = husk t n) : (t'.computed n).seq = (t.computed n).seq := by
  show (husk t' n).computed.seq = _
  rw [h]
  rfl

theorem parent?_of_husk (h : husk t' n = husk t n) : t'.parent? n = t.parent? n := by
  show (husk t' n).parent = _
  rw [h]
  rfl

theorem husk_of_shape (h : t'.shape n = t.shape n) : husk t' n = husk t n := by
  unfold husk
  rw [h]

theorem children_of_shape (h : t'.shape n = t.shape n) : t'.children n = t.children n := by
  show (t'.shape n).children = _
  rw [h]
  rfl

namespace Turn

variable {s s' : Turn} {runs : List Turn}

/-! ## Work on a body -/

/-- The body of the current run has been worked on.  What is not in it has kept its shape, and so has the node of the
    run but for its children; what lives now is in the body or was around it.  If the work is `even`, no node has come or
    gone. -/
structure AtWork (even : Prop) (s s' : Turn) : Prop where
  loop : s'.loop = s.loop
  wellFormed : s'.tree.WellFormed
  around : ∀ n, s.tree.Live n → ¬ Under s.tree s.loop.anchor n → s'.tree.Live n ∧ s'.tree.shape n = s.tree.shape n
  self : s'.tree.Live s.loop.anchor ∧ husk s'.tree s.loop.anchor = husk s.tree s.loop.anchor
  within : ∀ n, s'.tree.Live n → s.tree.Live n ∧ ¬ Under s.tree s.loop.anchor n ∨ Under s'.tree s.loop.anchor n
  same : even → ∀ n, s'.tree.Live n ↔ s.tree.Live n

namespace AtWork

/-- Nothing may happen. -/
theorem refl (hwf : s.tree.WellFormed) (hp : s.tree.parent? s.loop.anchor = some p) : AtWork even s s where
  loop := rfl
  wellFormed := hwf
  around := fun _ hn _ => ⟨hn, rfl⟩
  self := ⟨(hwf.live_of_parent hp).1, rfl⟩
  within := fun n hn => by
    by_cases hu : Under s.tree s.loop.anchor n
    · exact .inr hu
    · exact .inl ⟨hn, hu⟩
  same := fun _ _ => Iff.rfl

theorem parent?_around (h : AtWork even s s') (hn : s.tree.Live n) (hout : ¬ Under s.tree s.loop.anchor n) :
    s'.tree.parent? n = s.tree.parent? n := parent?_of_husk (husk_of_shape (h.around n hn hout).2)

/-- What was around the body is around it still. -/
theorem not_under (h : AtWork even s s') (hwf : s.tree.WellFormed) (hn : s.tree.Live n)
    (hout : ¬ Under s.tree s.loop.anchor n) : ¬ Under s'.tree s.loop.anchor n := by
  intro hu
  induction hu with
  | self => exact hout .self
  | @child q m hq _ ih =>
    rw [h.parent?_around hn hout] at hq
    exact ih (hwf.live_of_parent hq).2 fun hu => hout (.child hq hu)

/-- Work that is even leaves as many nodes in the body. -/
theorem under_self (h : AtWork even s s') (hwf : s.tree.WellFormed) (heven : even) (hn : s.tree.Live n) :
    Under s'.tree s.loop.anchor n ↔ Under s.tree s.loop.anchor n := by
  constructor
  · intro hu
    by_contra hout
    exact h.not_under hwf hn hout hu
  · intro hu
    rcases h.within n ((h.same heven n).mpr hn) with hout | hu'
    · exact absurd hu hout.2
    · exact hu'

/-- The node of the run has siblings, and the work does not touch them. -/
theorem sibling (h : AtWork even s s') (hwf : s.tree.WellFormed) (hp : s.tree.parent? s.loop.anchor = some p)
    (hc : s.tree.parent? c = some p) (hne : c ≠ s.loop.anchor) :
    s'.tree.Live c ∧ s'.tree.shape c = s.tree.shape c :=
  h.around c (hwf.live_of_parent hc).1 fun hu => hne (hwf.siblings_disjoint hp hc hu .self).symm

theorem parent (h : AtWork even s s') (hwf : s.tree.WellFormed) (hp : s.tree.parent? s.loop.anchor = some p) :
    s'.tree.Live p ∧ s'.tree.shape p = s.tree.shape p :=
  h.around p (hwf.live_of_parent hp).2 (hwf.not_under_parent hp)

/-- What is below a sibling is so still. -/
theorem under_sibling (h : AtWork even s s') (hwf : s.tree.WellFormed) (hp : s.tree.parent? s.loop.anchor = some p)
    (hc : s.tree.parent? c = some p) (hne : c ≠ s.loop.anchor) : Under s'.tree c n ↔ Under s.tree c n := by
  have hc' : s'.tree.parent? c = some p := (parent?_of_husk (husk_of_shape (h.sibling hwf hp hc hne).2)).trans hc
  constructor
  · intro hu
    induction hu with
    | self => exact .self
    | @child q m hq hu ih =>
      have hout : ¬ Under s'.tree s.loop.anchor m := fun hm =>
        hne (h.wellFormed.siblings_disjoint hc' ((parent?_of_husk h.self.2).trans hp) (.child hq hu) hm)
      obtain ⟨hl, hno⟩ := (h.within m (h.wellFormed.live_of_parent hq).1).resolve_right hout
      rw [h.parent?_around hl hno] at hq
      exact .child hq ih
  · intro hu
    induction hu with
    | self => exact .self
    | @child q m hq hu ih =>
      refine .child ?_ ih
      have hno : ¬ Under s.tree s.loop.anchor m := fun hm => hne (hwf.siblings_disjoint hc hp (.child hq hu) hm)
      rw [h.parent?_around (hwf.live_of_parent hq).1 hno]
      exact hq

/-- The node of the run and its siblings keep all but what is in them. -/
theorem husk_of_child (h : AtWork even s s') (hwf : s.tree.WellFormed) (hp : s.tree.parent? s.loop.anchor = some p)
    (hc : s.tree.parent? c = some p) : husk s'.tree c = husk s.tree c := by
  by_cases hne : c = s.loop.anchor
  · rw [hne]
    exact h.self.2
  · exact husk_of_shape (h.sibling hwf hp hc hne).2

end AtWork

/-! ## The row of copies -/

/-- The nodes of the runs of a loop below `p` stand in a row, the one of the current run last.  The first of them is the
    node of the loop in `t`; what stands before them and behind them is what stood around it there.  They have its
    mark, and numbers in order.  If all that has happened is even, the nodes of `t` are those that are not below the copies. -/
structure InRow (even : Prop) (t : Tree) (p anchor : NodeId) (before after front : List NodeId) (s : Turn) : Prop where
  wellFormed : s.tree.WellFormed
  head : (front ++ [s.loop.anchor]).head? = some anchor
  children : s.tree.children p = before ++ (front ++ s.loop.anchor :: after)
  marks : ∀ c ∈ front ++ [s.loop.anchor], mark s.tree c = mark t anchor
  seqs : (front ++ [s.loop.anchor]).map (fun c => (s.tree.computed c).seq) = (List.range (front.length + 1)).map some
  behind : ∀ n ∈ after, mark s.tree n = mark t n
  live : even → ∀ n, t.Live n ↔ s.tree.Live n ∧ ∀ c ∈ (front ++ [s.loop.anchor]).tail, ¬ Under s.tree c n

namespace InRow

theorem parent? (h : InRow even t p anchor before after front s) (hc : c ∈ front ++ [s.loop.anchor]) :
    s.tree.parent? c = some p := by
  refine h.wellFormed.mem_children.mp ?_
  rw [h.children]
  rcases List.mem_append.mp hc with hc | hc
  · exact List.mem_append_right _ (List.mem_append_left _ hc)
  · rw [List.mem_singleton.mp hc]
    exact List.mem_append_right _ List.mem_append_cons_self

theorem parent?_behind (h : InRow even t p anchor before after front s) (hn : n ∈ after) :
    s.tree.parent? n = some p := by
  refine h.wellFormed.mem_children.mp ?_
  rw [h.children]
  simp [hn]

theorem parent?_anchor (h : InRow even t p anchor before after front s) : s.tree.parent? s.loop.anchor = some p :=
  h.parent? List.mem_concat_self

/-- The row stays as it is while a body is worked on. -/
theorem atWork (h : InRow even t p anchor before after front s) (hw : AtWork even s s') :
    InRow even t p anchor before after front s' := by
  have hp := h.parent?_anchor
  have hanchor : s'.loop.anchor = s.loop.anchor := by rw [hw.loop]
  refine ⟨hw.wellFormed, ?_, ?_, fun c hc => ?_, ?_, fun n hn => ?_, fun heven n => ?_⟩
  · rw [hanchor]
    exact h.head
  · rw [hanchor, ← h.children]
    exact children_of_shape (hw.parent h.wellFormed hp).2
  · rw [hanchor] at hc
    rw [← h.marks c hc]
    exact mark_of_husk (hw.husk_of_child h.wellFormed hp (h.parent? hc))
  · rw [hanchor, ← h.seqs]
    exact List.map_congr_left fun c hc => seq_of_husk (hw.husk_of_child h.wellFormed hp (h.parent? hc))
  · rw [← h.behind n hn]
    exact mark_of_husk (hw.husk_of_child h.wellFormed hp (h.parent?_behind hn))
  · rw [hanchor, h.live heven n, hw.same heven n]
    refine and_congr_right fun hl => forall₂_congr fun c hc => not_congr ?_
    have hcp := h.parent? (List.mem_of_mem_tail hc)
    by_cases hne : c = s.loop.anchor
    · rw [hne]
      exact (hw.under_self h.wellFormed heven hl).symm
    · exact (hw.under_sibling h.wellFormed hp hcp hne).symm

theorem under_of_advanced (ha : Advanced t p a a' t') (hwf : t.WellFormed) (hn : t.Live n) :
    Under t' c n ↔ Under t c n :=
  Tree.under_congr fun m hm => ha.parent? m (hwf.live_of_under' hn hm)

/-- A call that makes a copy puts it at the end of the row. -/
theorem grown (h : InRow even t p anchor before after front s)
    (ha : Advanced s.tree p s.loop.anchor s'.loop.anchor s'.tree) (hnew : ¬ s.tree.Live s'.loop.anchor)
    (hseq : (s'.tree.computed s'.loop.anchor).seq = some (front.length + 1)) :
    InRow even t p anchor before after (front ++ [s.loop.anchor]) s' := by
  have hlive : ∀ c, s.tree.parent? c = some p → s.tree.Live c := fun c hc => (h.wellFormed.live_of_parent hc).1
  have hcontent : ∀ c, s.tree.parent? c = some p → s'.tree.content c = s.tree.content c := fun c hc =>
    ha.content c (hlive c hc) fun he => hnew (he ▸ hlive c hc)
  have hmark : ∀ c, s.tree.parent? c = some p → mark s'.tree c = mark s.tree c := fun c hc => by
    show (_, _, _) = (_, _, _)
    rw [Tree.name_eq_of_content (hcontent c hc), Tree.attrs_eq_of_content (hcontent c hc),
      Tree.computed_eq_of_content (hcontent c hc)]
  have hmarkNew : mark s'.tree s'.loop.anchor = mark s.tree s.loop.anchor := by
    show (_, _, _) = (_, _, _)
    rw [ha.name, ha.attrs, ha.repeatId]
  refine ⟨ha.wellFormed, ?_, ?_, fun c hc => ?_, ?_, fun n hn => ?_, fun heven n => ?_⟩
  · rw [List.head?_append, h.head]
    rfl
  · rcases ha.siblings with ⟨he, -⟩ | ⟨before', after', hs, hs'⟩
    · exact absurd (hlive _ h.parent?_anchor) (he ▸ hnew)
    · have hsplit : s.tree.children p = (before ++ front) ++ s.loop.anchor :: after := by
        rw [h.children, List.append_assoc]
      obtain ⟨rfl, rfl⟩ := h.wellFormed.split_unique hsplit hs
      rw [hs']
      simp only [List.append_assoc, List.singleton_append]
  · rcases List.mem_append.mp hc with hc | hc
    · rw [hmark c (h.parent? hc), h.marks c hc]
    · rw [List.mem_singleton.mp hc, hmarkNew, h.marks _ List.mem_concat_self]
  · have hold : (front ++ [s.loop.anchor]).map (fun c => (s'.tree.computed c).seq)
        = (List.range (front.length + 1)).map some := by
      rw [← h.seqs]
      exact List.map_congr_left fun c hc => by rw [Tree.computed_eq_of_content (hcontent c (h.parent? hc))]
    have hrange : List.range (front.length + 1 + 1) = List.range (front.length + 1) ++ [front.length + 1] :=
      List.range_succ
    rw [List.map_append, hold, List.map_singleton, hseq, List.length_append, List.length_singleton, hrange,
      List.map_append, List.map_singleton]
  · rw [hmark n (h.parent?_behind hn), h.behind n hn]
  · rw [h.live heven n, List.tail_append_of_ne_nil (List.concat_ne_nil _ _), List.forall_mem_append,
      List.forall_mem_singleton]
    by_cases hn : s.tree.Live n
    · have hout : ¬ Under s'.tree s'.loop.anchor n := fun hu =>
        hnew (h.wellFormed.live_of_under' hn ((under_of_advanced ha h.wellFormed hn).mp hu))
      simp only [hn, ha.live n hn, under_of_advanced ha h.wellFormed hn, true_and]
      exact ⟨fun hc => ⟨hc, (under_of_advanced ha h.wellFormed hn).not.mp hout⟩, And.left⟩
    · -- what is new is below the copy
      exact ⟨fun hl => absurd hl.1 hn, fun hl => absurd (ha.new n hl.1 hn).2 hl.2.2⟩

/-- The row shows in where the loop is and in the tree. -/
theorem congr (h : InRow even t p anchor before after front s) (ht : s'.tree = s.tree)
    (ha : s'.loop.anchor = s.loop.anchor) : InRow even t p anchor before after front s' := by
  obtain ⟨hwf, hhead, hchildren, hmarks, hseqs, hbehind, hlive⟩ := h
  rw [← ht, ← ha] at *
  exact ⟨hwf, hhead, hchildren, hmarks, hseqs, hbehind, hlive⟩

/-- The first call leaves the row as it is, and each further one adds a copy. -/
theorem next (h : InRow even t p anchor before after front s) (hlength : front.length = s.loop.count - 1)
    (hunrolling : s.loop.unrolling = true) (hnext : Turn.next s = .ok true s') :
    ∃ front', InRow even t p anchor before after front' s' ∧ front'.length = s.loop.count := by
  have hp := h.parent?_anchor
  have hc : Continues s p s' := next_ok h.wellFormed hp hnext
  by_cases hcount : s.loop.count = 0
  · obtain ⟨htree, hanchor⟩ := hc.firstRun hcount
    exact ⟨front, h.congr htree hanchor, by omega⟩
  · have hnew := anchor_of_next h.wellFormed hp hnext
    rw [if_pos ⟨hunrolling, Nat.pos_of_ne_zero hcount⟩] at hnew
    have hseq := hc.seq
    rw [if_neg hcount] at hseq
    have hlast : s.loop.count = front.length + 1 := by omega
    refine ⟨front ++ [s.loop.anchor], h.grown hc.advanced hnew (hseq.trans (congrArg some hlast)), ?_⟩
    rw [List.length_append, hlast]
    rfl

end InRow

/-- As long as a loop unrolls, its nodes stand in a row. -/
theorem Calls.inRow {s₀ : Turn} (h : Calls (AtWork even) s₀ runs s) (h₀ : InRow even t p anchor before after [] s₀)
    (hcount : s₀.loop.count = 0) (hunrolling : s₀.loop.unrolling = true) :
    ∃ front, InRow even t p anchor before after front s ∧ front.length = s.loop.count - 1 := by
  induction h with
  | none => exact ⟨[], h₀, by rw [hcount]; rfl⟩
  | @run runs s₁ s₂ s₃ hcalls begins rest ih =>
    obtain ⟨front, hrow, hlength⟩ := ih
    have hun : s₁.loop.unrolling = true := by
      rw [hcalls.loop fun _ _ hw => hw.loop]
      exact hunrolling
    obtain ⟨front', hrow', hlength'⟩ := hrow.next hlength hun begins
    refine ⟨front', hrow'.atWork rest, ?_⟩
    rw [hlength', rest.loop, loop_of_next begins]
    rfl

/-- A loop that does not unroll stays on its node. -/
theorem Calls.still {s₀ : Turn} (h : Calls (AtWork even) s₀ runs s) (hwf : s₀.tree.WellFormed)
    (hp : s₀.tree.parent? s₀.loop.anchor = some p) (hunrolling : s₀.loop.unrolling = false) :
    s.tree.WellFormed ∧ s.loop.anchor = s₀.loop.anchor ∧ s.tree.parent? s.loop.anchor = some p := by
  induction h with
  | none => exact ⟨hwf, rfl, hp⟩
  | @run runs s₁ s₂ s₃ hcalls begins rest ih =>
    obtain ⟨hwf₁, hanchor₁, hp₁⟩ := ih
    have hc : Continues s₁ p s₂ := next_ok hwf₁ hp₁ begins
    have hanchor₂ := anchor_of_next hwf₁ hp₁ begins
    have hun : s₁.loop.unrolling = false := by
      rw [hcalls.loop fun _ _ hw => hw.loop]
      exact hunrolling
    rw [if_neg fun hgo => by rw [hun] at hgo; exact Bool.false_ne_true hgo.1] at hanchor₂
    refine ⟨rest.wellFormed, ?_, ?_⟩
    · rw [rest.loop, hanchor₂, hanchor₁]
    · rw [rest.loop, parent?_of_husk rest.self.2]
      exact hc.advanced.parent

/-- A loop that does not unroll makes no node, and numbers its own by the runs. -/
theorem Calls.numbered {s₀ : Turn} (h : Calls (AtWork even) s₀ runs s) (hwf : s₀.tree.WellFormed)
    (hp : s₀.tree.parent? s₀.loop.anchor = some p) (hseq : (s₀.tree.computed s₀.loop.anchor).seq = some 0)
    (hcount : s₀.loop.count = 0) (hunrolling : s₀.loop.unrolling = false) (hnext : next s = .ok true s') :
    s'.loop.anchor = s₀.loop.anchor ∧ (s'.tree.computed s₀.loop.anchor).seq = some runs.length
      ∧ ∀ n, s'.tree.Live n ↔ s.tree.Live n := by
  obtain ⟨hwf₁, hanchor₁, hp₁⟩ := h.still hwf hp hunrolling
  have hc : Continues s p s' := next_ok hwf₁ hp₁ hnext
  have hloop := h.loop fun _ _ hw => hw.loop
  have hstays : s'.loop.anchor = s.loop.anchor := by
    have hstays := anchor_of_next hwf₁ hp₁ hnext
    rwa [if_neg fun hgo => by rw [hloop, hunrolling] at hgo; exact Bool.false_ne_true hgo.1] at hstays
  have hruns : s.loop.count = runs.length := by
    rw [hloop, hcount, Nat.zero_add]
  refine ⟨hstays.trans hanchor₁, ?_, fun n => ⟨fun hn => ?_, hc.advanced.live n⟩⟩
  · have hnumber := hc.seq
    rw [hstays, hanchor₁, hruns] at hnumber
    rw [hnumber]
    split
    · rename_i hzero
      rw [List.length_eq_zero_iff.mp hzero] at h ⊢
      rw [h.eq_of_nil]
      exact hseq
    · rfl
  · by_contra hnot
    refine (hc.advanced.new n hn hnot).1 ?_
    rw [hstays]
    exact (hwf₁.live_of_parent hp₁).1

end Turn

/-! ## The first visit and the next one -/

open Turn (AtWork Calls InRow)

variable {l l' : Loop} {key : String} {combined : Combined} {feed : Feed} {scan : List Position} {s s' later : Turn}
  {runs : List Turn} {id : Nat}

theorem dropCopies_of_nil (h : copies t anchor = []) : dropCopies t anchor = t := by
  unfold dropCopies
  rw [h]
  rfl

theorem mark_setSeq (t : Tree) (a n : NodeId) (k : Nat) : mark (t.setSeq a k) n = mark t n := by
  unfold mark Tree.name Tree.computed Tree.setSeq Tree.modifyComputed
  rw [Tree.node_modify]
  split <;> rfl

/-- A loop without copies that is entered is a row of one. -/
theorem inRow_of_entered (hwf : t.WellFormed) (hs : t.children p = before ++ anchor :: after)
    (hanchor : s.loop.anchor = anchor) (htree : s.tree = t.setSeq anchor 0) :
    InRow even t p anchor before after [] s := by
  have hp : t.parent? anchor = some p := hwf.mem_children.mp (by rw [hs]; exact List.mem_append_cons_self)
  refine ⟨?_, ?_, ?_, fun c hc => ?_, ?_, fun n _ => ?_, fun _ n => ?_⟩
  · rw [htree]
    exact hwf.modifyComputed _ _
  · rw [hanchor]
    rfl
  · rw [htree, hanchor, ← hs.trans (congrArg _ (List.nil_append _).symm)]
    exact Tree.children_modifyComputed _
  · rw [List.nil_append, hanchor, List.mem_singleton] at hc
    rw [hc, htree, mark_setSeq]
  · rw [hanchor, htree]
    show [((t.setSeq anchor 0).computed anchor).seq] = [some 0]
    unfold Tree.computed Tree.setSeq Tree.modifyComputed
    rw [Tree.node_modify, if_pos ⟨rfl, (hwf.live_of_parent hp).1.1⟩]
  · rw [htree, mark_setSeq]
  · rw [htree]
    show _ ↔ (t.modify _ _).Live n ∧ ∀ c ∈ [], _
    rw [Tree.live_modify]
    simp

/-- The copies of a loop are found by their mark. -/
theorem copies_of_row {clones : List NodeId} (hwf : t.WellFormed) (hwf' : t'.WellFormed)
    (hs : t.children p = before ++ anchor :: after) (hs' : t'.children p = before ++ anchor :: (clones ++ after))
    (hname : t.name anchor = "repeat") (hid : (t.computed anchor).repeatId = some id)
    (hmarks : ∀ c ∈ anchor :: clones, mark t' c = mark t anchor) (hbehind : ∀ n ∈ after, mark t' n = mark t n)
    (hnone : copies t anchor = []) : copies t' anchor = clones := by
  have hid' : (t'.computed anchor).repeatId = some id := by
    rw [← hid]
    exact congrArg (fun x => x.2.2) (hmarks anchor List.mem_cons_self)
  have htest : ∀ n n' : NodeId, mark t' n = mark t n' →
      (t'.name n == "repeat" && (t'.computed n).repeatId == some id)
        = (t.name n' == "repeat" && (t.computed n').repeatId == some id) := by
    intro n n' h
    rw [show t'.name n = t.name n' from congrArg Prod.fst h,
      show (t'.computed n).repeatId = (t.computed n').repeatId from congrArg (fun x => x.2.2) h]
  have hclones : ∀ c ∈ clones, (t'.name c == "repeat" && (t'.computed c).repeatId == some id) = true := by
    intro c hc
    rw [htest c anchor (hmarks c (List.mem_cons_of_mem _ hc)), hname, hid]
    simp
  unfold copies at hnone ⊢
  rw [hid, hwf.followingSiblings_of_split hs] at hnone
  rw [hid', hwf'.followingSiblings_of_split hs']
  dsimp only at hnone ⊢
  rw [List.takeWhile_append_of_pos hclones]
  have hafter : after.takeWhile (fun n => t'.name n == "repeat" && (t'.computed n).repeatId == some id) = [] := by
    cases after with
    | nil => rfl
    | cons x xs =>
      rw [List.takeWhile_cons] at hnone ⊢
      rw [htest x x (hbehind x List.mem_cons_self)]
      split at hnone
      · cases hnone
      · rename_i hno
        rw [if_neg hno]
  rw [hafter, List.append_nil]

/-- The loop of a row can be entered again, as far as its attributes go. -/
theorem Turn.InRow.exists_declared (h : InRow even t p anchor before after front s)
    (hdecl : declared t anchor key combined = .ok l)
    (hmax : (t.attr? anchor "max").isSome ∨ t.attr? anchor "xmax" = none) (key' : String) (combined' : Combined) :
    ∃ l', declared s.tree anchor key' combined' = .ok l' := by
  have hmark := h.marks anchor (List.mem_of_head? h.head)
  refine Loop.exists_declared (fun name => ?_) hdecl hmax key' combined'
  unfold Tree.attr?
  rw [show (s.tree.node anchor).attrs = (t.node anchor).attrs from congrArg (fun x => x.2.1) hmark]

/-! ## Loops that unroll -/

/-- The loop of `anchor`, a child of `p` in `t`, has as many copies as it has run again: they are its copies, with its mark,
    right behind it, and they are numbered as the loop itself is. -/
structure HasCopies (t : Tree) (p anchor : NodeId) (again : Nat) (clones : List NodeId) (t' : Tree) : Prop where
  children : ∃ before after, t.children p = before ++ anchor :: after
    ∧ t'.children p = before ++ anchor :: (clones ++ after)
  length : clones.length = again
  copies : copies t' anchor = clones
  marks : ∀ c ∈ clones, mark t' c = mark t anchor
  seqs : (anchor :: clones).map (fun c => (t'.computed c).seq) = (List.range (again + 1)).map some

theorem inRow_hasCopies (h : InRow even t p anchor before after front s) (hwf : t.WellFormed)
    (hs : t.children p = before ++ anchor :: after) (hname : t.name anchor = "repeat")
    (hid : (t.computed anchor).repeatId = some id) (hnone : copies t anchor = []) :
    ∃ clones, front ++ [s.loop.anchor] = anchor :: clones ∧ HasCopies t p anchor front.length clones s.tree := by
  obtain ⟨clones, hclones⟩ := List.head?_eq_some_iff.mp h.head
  have hchildren : s.tree.children p = before ++ anchor :: (clones ++ after) := by
    rw [h.children, ← List.singleton_append, ← List.append_assoc front, hclones]
    rfl
  have hmarks := h.marks
  have hseqs := h.seqs
  rw [hclones] at hmarks hseqs
  refine ⟨clones, hclones, ⟨before, after, hs, hchildren⟩, ?_, ?_, fun c hc => hmarks c (List.mem_cons_of_mem _ hc), hseqs⟩
  · have hlength := congrArg List.length hclones
    rw [List.length_append, List.length_singleton, List.length_cons] at hlength
    exact Nat.succ.inj hlength.symm
  · exact copies_of_row hwf h.wellFormed hs hchildren hname hid hmarks h.behind hnone

/-- What is left of the tree when a loop with some copies is entered again: the copies are gone, and what was below
    them.  If all that has happened before is even, nothing else has gone or come. -/
structure Cleared (even : Prop) (t : Tree) (p : NodeId) (clones : List NodeId) (t₁ t' : Tree) : Prop where
  children : t'.children p = t.children p
  live : ∀ n, t'.Live n ↔ t₁.Live n ∧ ∀ c ∈ clones, ¬ Under t₁ c n
  same : even → ∀ n, t'.Live n ↔ t.Live n
  size : even → t'.size = t.size

theorem size_of_live (hwf : t.WellFormed) (hwf' : t'.WellFormed) (h : ∀ n, t'.Live n ↔ t.Live n) :
    t'.size = t.size := by
  rw [← hwf.ncard_live, ← hwf'.ncard_live]
  exact congrArg Set.ncard (Set.ext h)

/-- Entering the loop again drops the copies. -/
theorem exists_cleared {clones : List NodeId} (h : InRow even t p anchor before after front s) (hwf : t.WellFormed)
    (hclones : front ++ [s.loop.anchor] = anchor :: clones) (hc : HasCopies t p anchor front.length clones s.tree)
    (hdecl : declared s.tree anchor key combined = .ok l) :
    ∃ t', enter anchor key combined s.tree = .ok l t' ∧ Cleared even t p clones s.tree t' := by
  have hp : s.tree.parent? anchor = some p := h.parent? (by rw [hclones]; exact List.mem_cons_self)
  have he := entered h.wellFormed hp
  refine ⟨_, enter_of_declared hdecl, ?_⟩
  generalize (dropCopies s.tree anchor).setSeq anchor 0 = t' at he
  have hlive : ∀ n, t'.Live n ↔ s.tree.Live n ∧ ∀ c ∈ clones, ¬ Under s.tree c n := by
    rw [← hc.copies]
    exact he.live
  have hsame : even → ∀ n, t'.Live n ↔ t.Live n := fun heven n => by
    have hn := h.live heven n
    rw [hclones, List.tail_cons] at hn
    exact (hlive n).trans hn.symm
  obtain ⟨before, after, hs, hchildren⟩ := hc.children
  obtain ⟨before', after', hsplit, hsplit', -⟩ := Walk.siblings_of_entered h.wellFormed hp he
  obtain ⟨rfl, hrest⟩ := h.wellFormed.split_unique hchildren hsplit
  rw [hc.copies, List.append_cancel_left_eq] at hrest
  have hback : t'.children p = t.children p := by
    rw [hsplit', ← hrest, hs]
  exact ⟨hback, hlive, hsame, fun heven => size_of_live hwf he.wellFormed (hsame heven)⟩

/-- A further call touches nothing but the list of the loop's siblings. -/
theorem untouched_of_next (hwf : s.tree.WellFormed) (hp : s.tree.parent? s.loop.anchor = some p)
    (hunrolling : s.loop.unrolling = true) (h : Turn.next s = .ok true s') :
    (∀ n, s.tree.Live n → n ≠ p → s'.tree.Live n ∧ s'.tree.node n = s.tree.node n)
      ∧ s'.tree.content p = s.tree.content p
      ∧ ∃ es, Tree.HoldsAll s.tree (s.tree.children s.loop.anchor) es
        ∧ Tree.HoldsAll s'.tree (s'.tree.children s'.loop.anchor) es := by
  have hc : Turn.Continues s p s' := Turn.next_ok hwf hp h
  by_cases hcount : s.loop.count = 0
  · obtain ⟨htree, hanchor⟩ := hc.firstRun hcount
    rw [htree, hanchor]
    exact ⟨fun n hn _ => ⟨hn, rfl⟩, rfl, _, (hwf.holds_element _).children, (hwf.holds_element _).children⟩
  · have hnew := Turn.anchor_of_next hwf hp h
    rw [if_pos ⟨hunrolling, Nat.pos_of_ne_zero hcount⟩] at hnew
    have hne : ∀ n, s.tree.Live n → n ≠ s'.loop.anchor := fun n hn he => hnew (he ▸ hn)
    have ha := hc.advanced
    exact ⟨fun n hn hnp => ⟨ha.live n hn, ha.node n hn (hne n hn) hnp⟩,
      ha.content p (hwf.live_of_parent hp).2 (hne p (hwf.live_of_parent hp).2), ha.copy hnew⟩

/-- A loop with a number and a parent is entered, when no copy stands behind it, and begins some runs.

    If it unrolls, its copies stand behind it, one for each run but the first, and the walk goes on in the last of them.
    The last call has put a copy of the node before at the end, and touched nothing else.  And as long as only the body of
    the run is worked on, the loop that is entered again drops its copies, and no more.

    If it does not unroll, no call has made a node, and the node of the loop is numbered by the runs. -/
theorem copies_in_a_row {t₀ : Tree} (hwf : t.WellFormed) (hp : t.parent? anchor = some p)
    (hname : t.name anchor = "repeat") (hid : (t.computed anchor).repeatId = some id) (hnone : copies t anchor = [])
    (henter : enter anchor key combined t = .ok l t₀) (hcalls : Calls (AtWork even) ⟨l, t₀, feed, scan⟩ runs s)
    (hnext : Turn.next s = .ok true s') :
    if l.unrolling then
      ∃ clones, HasCopies t p anchor runs.length clones s'.tree
        ∧ (∃ first, s'.scan.head? = some ⟨l.bodyKey, first⟩
          ∧ (anchor :: clones).getLast?.bind s'.tree.firstChild? = some first)
        ∧ ((∀ n, s.tree.Live n → n ≠ p → s'.tree.Live n ∧ s'.tree.node n = s.tree.node n)
          ∧ s'.tree.content p = s.tree.content p
          ∧ ∃ es, Tree.HoldsAll s.tree (s.tree.children s.loop.anchor) es
            ∧ Tree.HoldsAll s'.tree (s'.tree.children s'.loop.anchor) es)
        ∧ ∀ later, AtWork even s' later → ∀ key' combined',
          ((t.attr? anchor "max").isSome ∨ t.attr? anchor "xmax" = none →
              ∃ l', declared later.tree anchor key' combined' = .ok l')
            ∧ ∀ l', declared later.tree anchor key' combined' = .ok l' →
              ∃ t', enter anchor key' combined' later.tree = .ok l' t' ∧ Cleared even t p clones later.tree t'
    else
      s'.loop.anchor = anchor ∧ (s'.tree.computed anchor).seq = some runs.length
        ∧ ∀ n, s'.tree.Live n ↔ s.tree.Live n := by
  obtain ⟨hdecl, rfl⟩ := enter_ok henter
  obtain ⟨hl₀, -, -, hlanchor⟩ := declared_ok hdecl
  obtain ⟨before, after, hs⟩ := hwf.exists_split hp
  rw [dropCopies_of_nil hnone] at hcalls
  have hloop := hcalls.loop fun _ _ hw => hw.loop
  have hcount : s.loop.count = runs.length := by
    rw [hloop]
    show l.count + runs.length = _
    rw [hl₀, Nat.zero_add]
  have hstart : InRow even t p anchor before after [] ⟨l, t.setSeq anchor 0, feed, scan⟩ :=
    inRow_of_entered hwf hs hlanchor rfl
  split
  · rename_i hun
    have hunrolling : s.loop.unrolling = true := by
      rw [hloop]
      exact hun
    obtain ⟨front, hrow, hlength⟩ := hcalls.inRow hstart hl₀ hun
    obtain ⟨front', hrow', hlength'⟩ := hrow.next hlength hunrolling hnext
    obtain ⟨clones, hclones, hhas⟩ := inRow_hasCopies hrow' hwf hs hname hid hnone
    rw [hlength', hcount] at hhas
    refine ⟨clones, hhas, ?_, untouched_of_next hrow.wellFormed hrow.parent?_anchor hunrolling hnext,
      fun later hlater key' combined' => ⟨fun hmax => ?_, fun l' hdecl' => ?_⟩⟩
    · have hc : Turn.Continues s p s' := Turn.next_ok hrow.wellFormed hrow.parent?_anchor hnext
      obtain ⟨first, hscan, hfirst⟩ := hc.begins
      refine ⟨first, ?_, ?_⟩
      · rw [hscan, hloop]
        rfl
      · rw [← hclones, List.getLast?_concat]
        exact hfirst
    · exact (hrow'.atWork hlater).exists_declared hdecl hmax key' combined'
    · have hrow₂ := hrow'.atWork hlater
      obtain ⟨clones₂, hclones₂, hhas₂⟩ := inRow_hasCopies hrow₂ hwf hs hname hid hnone
      have hsame : clones₂ = clones := by
        rw [hlater.loop, hclones] at hclones₂
        exact (List.cons.inj hclones₂).2.symm
      subst hsame
      exact exists_cleared hrow₂ hwf hclones₂ hhas₂ hdecl'
  · rename_i hun
    have hno : l.unrolling = false := Bool.eq_false_iff.mpr hun
    have hseq : ((t.setSeq anchor 0).computed l.anchor).seq = some 0 := (List.cons.inj hstart.seqs).1
    rw [← hlanchor]
    exact hcalls.numbered hstart.wellFormed hstart.parent?_anchor hseq hl₀ hno hnext

/-- A loop between other nodes that is asked twice, and entered again. -/
theorem copies_in_a_row_of_two :
    let loop : Element := .mk "repeat" [("max", "2"), ("unrolling", "true")] "" .none [.mk "nop" [] "" .none []]
    let read := Tree.ofElement (.mk "layout" [] "" .none [.mk "nop" [] "" .none [], loop, .mk "nop" [] "" .none []])
    let t := read.modifyComputed 2 fun c => { c with repeatId := some 7 }
    ∃ l t₀ s s' clone l' t', enter 2 "" (.ofList []) t = .ok l t₀
      ∧ Turn.next ⟨l, t₀, .records none, []⟩ = .ok true s ∧ Turn.next s = .ok true s'
      ∧ t.children 0 = [1, 2, 4] ∧ s'.tree.children 0 = [1, 2, clone, 4]
      ∧ (s'.tree.computed clone).repeatId = some 7 ∧ (s'.tree.computed clone).seq = some 1
      ∧ enter 2 "" (.ofList []) s'.tree = .ok l' t' ∧ t'.children 0 = [1, 2, 4] ∧ t'.size = t.size := by
  intro loop read t
  have hwf : t.WellFormed := (Tree.grafted_ofElement _).wellFormed.modifyComputed _ _
  have hp : t.parent? 2 = some 0 := rfl
  have hruns : Action.succeeds (enter 2 "" (.ofList []) t) (fun l t₀ => l.unrolling
      && Action.succeeds (Turn.next ⟨l, t₀, .records none, []⟩) fun more s => more
        && Action.succeeds (Turn.next s) fun more _ => more) = true := by
    decide +kernel
  obtain ⟨l, t₀, henter, hruns⟩ := Action.succeeds_iff.mp hruns
  obtain ⟨hunrolling, hruns⟩ := Bool.and_eq_true_iff.mp hruns
  obtain ⟨more, s, hfirst, hruns⟩ := Action.succeeds_iff.mp hruns
  obtain ⟨rfl, hruns⟩ := Bool.and_eq_true_iff.mp hruns
  obtain ⟨more, s', hsecond, rfl⟩ := Action.succeeds_iff.mp hruns
  obtain ⟨hdecl, rfl⟩ := enter_ok henter
  have hset : Settled t 2 _ := settled hwf
  have hc : Turn.Continues ⟨l, (dropCopies t 2).setSeq 2 0, .records none, []⟩ 0 s :=
    Turn.next_ok hset.wellFormed (by rw [(declared_ok hdecl).2.2.2]; exact hset.parent?.trans hp) hfirst
  have hc' : Turn.Continues s 0 s' := Turn.next_ok hc.advanced.wellFormed hc.advanced.parent hsecond
  have hcalls : Calls (AtWork True) ⟨l, (dropCopies t 2).setSeq 2 0, .records none, []⟩ [s] s :=
    .run .none hfirst (.refl hc.advanced.wellFormed hc.advanced.parent)
  have hrow := copies_in_a_row hwf hp rfl rfl (by decide) henter hcalls hsecond
  rw [if_pos hunrolling] at hrow
  obtain ⟨clones, hhas, -, -, hagain⟩ := hrow
  obtain ⟨clone, rfl⟩ := List.length_eq_one_iff.mp hhas.length
  obtain ⟨hmax, hcleared⟩ := hagain s' (.refl hc'.advanced.wellFormed hc'.advanced.parent) "" (.ofList [])
  obtain ⟨l', hdecl'⟩ := hmax (.inl (by decide))
  obtain ⟨t', henter', hclear⟩ := hcleared l' hdecl'
  have hchildren : t.children 0 = [1] ++ 2 :: [4] := by decide +kernel
  obtain ⟨before, after, hs, hs'⟩ := hhas.children
  obtain ⟨rfl, rfl⟩ := hwf.split_unique hchildren hs
  refine ⟨l, _, s, s', clone, l', t', henter, hfirst, hsecond, hchildren, hs', ?_, ?_, henter',
    hclear.children.trans hchildren, hclear.size trivial⟩
  · exact congrArg (fun x => x.2.2) (hhas.marks clone List.mem_cons_self)
  · exact (List.cons.inj (List.cons.inj hhas.seqs).2).1

end Stencil.Loop
