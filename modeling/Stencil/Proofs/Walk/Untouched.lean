/-
  Fields that a walk leaves alone.

  Most of what a walk does has nothing to do with a given field `x`.

    1. A field hangs off a trunk (`Hangs`).  No trunk comes below it, and it has nothing below it in common with
       any other node that hangs off a trunk (`Hangs.not_under`, `Hangs.apart`).
    2. So it is left alone (`Untouched`) where another one is written, where something is put on a trunk or dropped
       there, and where another document is changed.
    3. Only lazy fields wait, and so a field that is not lazy is never written again (`Unawaited`).
    4. It follows what a visit to another node leaves alone (`Visiting.untouched`), and what the loops leave alone
       that are asked at the end of a run (`RunEnded.untouched`).
-/
import Stencil.Proofs.Meaning.Rendering
import Stencil.Proofs.Walk.Engaged
import Stencil.Proofs.Walk.Intact

set_option autoImplicit false

namespace Stencil.Walk

open Stencil.Meaning (Beneath outline)
open Stencil.Tree (Under Inner Closed Keeps Refreshed Added)
open Loop (Entered copies)
open Loop.Turn (Continues Advanced)

variable {t t' t₁ : Tree} {rs roots parents : List NodeId} {root p q n m a a' x y z c : NodeId} {r : Run}
  {f g : Frame} {more : List Frame} {w w₁ w₂ w' : Walk} {o : Options} {key : String} {l : Loop}
  {loops outer : List Loop} {u : Unit} {even : Prop} {files : Files} {j j' : Job} {s : Setup} {P : NodeId → Prop}

/-! ## What hangs off a trunk -/

/-- A node that is on no trunk, but whose parent is on that of `root`: a field, for one. -/
structure Hangs (t : Tree) (root x : NodeId) : Prop where
  isRoot : IsRoot t root
  parent : ∃ q, t.parent? x = some q ∧ Inner t root q
  group : t.name x ≠ "items"
  loop : t.name x ≠ "repeat"

namespace Hangs

theorem of_item (hroot : IsRoot t root) (hp : t.parent? x = some p) (hi : Inner t root p) (hname : t.name x = "item") :
    Hangs t root x :=
  ⟨hroot, ⟨p, hp, hi⟩, by rw [hname]; decide, by rw [hname]; decide⟩

/-- A `writer` hangs off the trunk. -/
theorem of_writer (h : AtWriter t root x) : Hangs t root x :=
  ⟨h.isRoot, h.parent, by rw [h.name]; decide, by rw [h.name]; decide⟩

/-- A field that waits hangs off the trunk of its document. -/
theorem of_awaits (hroot : IsRoot t root) (h : Awaits t root loops x) : Hangs t root x := by
  obtain ⟨q, hq, hi⟩ := h.parent
  exact .of_item hroot hq hi h.name

theorem live (hwf : t.WellFormed) (h : Hangs t root x) : t.Live x := by
  obtain ⟨q, hq, -⟩ := h.parent
  exact (hwf.live_of_parent hq).1

theorem under (h : Hangs t root x) : Under t root x := by
  obtain ⟨q, hq, hi⟩ := h.parent
  exact .child hq hi.under

theorem not_inner (h : Hangs t root x) (hr : IsRoot t p) : ¬ Inner t p x := by
  obtain ⟨q, hq, -⟩ := h.parent
  exact fun hi => (hi.name hr.parent? hq).elim h.group h.loop

/-- No trunk comes below. -/
theorem not_under (hwf : t.WellFormed) (h : Hangs t root x) (hr : IsRoot t p) (hq : Inner t p q) : ¬ Under t x q :=
  fun hu => h.not_inner hr ((Tree.trunk_inner hwf hr.live hr.parent?).of_under hu hq)

/-- Two nodes that hang off trunks have nothing below them in common. -/
theorem apart (hwf : t.WellFormed) (h : Hangs t root x) (h' : Hangs t p y) (hne : x ≠ y) (hu : Under t x z) :
    ¬ Under t y z := by
  intro hu'
  rcases hu.comparable hu' with hxy | hyx
  · obtain ⟨q, hq, hi⟩ := h'.parent
    exact h.not_under hwf h'.isRoot hi (hxy.of_parent hq hne.symm)
  · obtain ⟨q, hq, hi⟩ := h.parent
    exact h'.not_under hwf h.isRoot hi (hyx.of_parent hq hne)

/-- A change that the walk of the document does not notice. -/
theorem of_around (hwf : t.WellFormed) (h : Hangs t root x) (hr : root ∈ rs) (ha : Around rs t t') :
    Hangs t' root x := by
  obtain ⟨q, hp, hi⟩ := h.parent
  have hk := ha.trunk root hr h.isRoot
  have hname := ha.names root hr h.isRoot q hi x (hwf.mem_children.mpr hp)
  refine ⟨ha.isRoot root h.isRoot, ⟨q, ?_, hi.of_keepsShape hk⟩, hname ▸ h.group, hname ▸ h.loop⟩
  exact parent?_of_keepsShape hwf ha.wellFormed hk hi hp

/-- A change off the trunks. -/
theorem of_quiet (hwf : t.WellFormed) (h : Hangs t root x) (hq : Quiet t t') : Hangs t' root x :=
  h.of_around hwf (List.mem_singleton_self root) (hq.around hwf)

end Hangs

/-! ## What is left alone -/

/-- A node and all that is below it is in `t'` what it is in `t`, but for what was last written. -/
def Untouched (t t' : Tree) (x : NodeId) : Prop :=
  ∀ y, Under t x y → t'.Live y ∧ t'.parent? y = t.parent? y ∧ outline t' y = outline t y

namespace Untouched

theorem refl (hwf : t.WellFormed) (hl : t.Live x) : Untouched t t x :=
  fun _ hy => ⟨hwf.live_of_under hl hy, rfl, rfl⟩

theorem under (h : Untouched t t' x) (hu : Under t x y) : Under t' x y := by
  induction hu with
  | self => exact .self
  | @child p c hp hu ih => exact .child ((h c (.child hp hu)).2.1.trans hp) ih

theorem trans (h : Untouched t t₁ x) (h' : Untouched t₁ t' x) : Untouched t t' x := by
  intro y hy
  obtain ⟨-, hp, ho⟩ := h y hy
  obtain ⟨hl, hp', ho'⟩ := h' y (h.under hy)
  exact ⟨hl, hp'.trans hp, ho'.trans ho⟩

theorem of_nodes (h : ∀ y, Under t x y → t'.Live y ∧ t'.node y = t.node y) : Untouched t t' x := fun y hy =>
  ⟨(h y hy).1, congrArg Node.parent (h y hy).2, Meaning.outline_of_node (h y hy).2⟩

/-- Another document is changed. -/
theorem of_keeps (hc : Closed t P) (hx : P x) (h : Keeps P t t') : Untouched t t' x := by
  refine of_nodes fun y hy => h y ?_
  induction hy with
  | self => exact hx
  | child hp _ ih => exact hc.down _ _ ih hp

variable (hwf : t.WellFormed) (hx : Hangs t root x)

include hwf hx

/-- Something below another node is changed that hangs off a trunk. -/
theorem of_beneath (hy : Hangs t p y) (hne : y ≠ x) (h : Beneath t y t') : Untouched t t' x := by
  intro z hz
  have hl := hwf.live_of_under (hx.live hwf) hz
  have hout := hx.apart hwf hy hne.symm hz
  exact ⟨h.live z hl (.inl hout), h.parent? z hl (.inl hout), h.outline z hl hout⟩

variable (hr : IsRoot t p) (hi : Inner t p q)

include hr hi

/-- A new node is put on a trunk. -/
theorem of_added {ns : List NodeId} {new : Node} (h : Added t q ns new n t') : Untouched t t' x := by
  refine of_nodes fun y hy => ?_
  have hl := hwf.live_of_under (hx.live hwf) hy
  refine ⟨h.live y hl, h.node y hl ?_⟩
  rintro rfl
  exact hx.not_under hwf hr hi hy

/-- A loop is entered, and the field stands in no copy of it. -/
theorem of_entered (hq : t.parent? n = some q) (hname : t.name n = "repeat") (hcopy : ∀ c ∈ copies t n, ¬ Under t c x)
    (h : Entered t n q t') : Untouched t t' x := by
  have hin : Inner t p n := .step hi hq (.inr hname)
  refine of_nodes fun y hy => ?_
  have hl : t'.Live y := by
    refine (h.live y).mpr ⟨hwf.live_of_under (hx.live hwf) hy, fun c hc hu => ?_⟩
    rcases hu.comparable hy with hcx | hxc
    · exact hcopy c hc hcx
    · obtain ⟨hpc, -⟩ := Loop.parent?_of_mem_copies hwf hq hc
      have hic : Inner t p c := by
        have hcn : t.name c = "repeat" := (copied_of_mem_copies hwf hname hc).name
        exact .step hi hpc (.inr hcn)
      exact hx.not_under hwf hr hic hxc
  refine ⟨hl, h.node y hl ?_ ?_⟩
  · rintro rfl
    exact hx.not_under hwf hr hin hy
  · rintro rfl
    exact hx.not_under hwf hr hi hy

/-- A loop goes on. -/
theorem of_advanced (hq : t.parent? a = some q) (hname : t.name a = "repeat") (h : Advanced t q a a' t') :
    Untouched t t' x := by
  have hin : Inner t p a := .step hi hq (.inr hname)
  refine of_nodes fun y hy => ?_
  have hl := hwf.live_of_under (hx.live hwf) hy
  refine ⟨h.live y hl, h.node y hl ?_ ?_⟩
  · rintro rfl
    rcases h.same with rfl | hnot
    · exact hx.not_under hwf hr hin hy
    · exact hnot hl
  · rintro rfl
    exact hx.not_under hwf hr hi hy

end Untouched

/-! ## What waits -/

/-- What waits on a level hangs off trunks, and it is not `x`. -/
def Elsewhere (t : Tree) (x : NodeId) (level : List Waiting) : Prop :=
  ∀ y ∈ level, y.item ≠ x ∧ ∃ root, Hangs t root y.item

/-- So it is on all levels of a sink. -/
def Unawaited (t : Tree) (x : NodeId) (s : Sink) : Prop := ∀ level ∈ s.levels, Elsewhere t x level

theorem Elsewhere.of_quiet {level : List Waiting} (hwf : t.WellFormed) (h : Elsewhere t x level) (hq : Quiet t t') :
    Elsewhere t' x level := fun y hy => by
  obtain ⟨hne, root, hr⟩ := h y hy
  exact ⟨hne, root, hr.of_quiet hwf hq⟩

theorem Unawaited.push {k : Sink} (h : Unawaited t x k) : Unawaited t x k.push :=
  List.forall_mem_cons.mpr ⟨fun _ hy => absurd hy List.not_mem_nil, h⟩

theorem Unawaited.pop {k : Sink} (h : Unawaited t x k) : Unawaited t x k.pop :=
  fun level hl => h level (List.mem_of_mem_tail hl)

/-- A level that is completed is empty. -/
theorem Unawaited.of_completed (hwf : j.space.tree.WellFormed) (h : Unawaited j.space.tree x j.sink)
    (hd : Job.Completed j j') : Unawaited j'.space.tree x j'.sink := by
  have hq := quiet_of_refreshed hwf hd.tree
  intro level hl
  rw [hd.levels] at hl
  cases hls : j.sink.levels with
  | nil =>
    rw [hls] at hl
    cases hl
  | cons top levels =>
    rw [hls] at hl
    rcases List.mem_cons.mp hl with rfl | hl
    · exact fun _ hy => absurd hy List.not_mem_nil
    · exact (h level (hls ▸ List.mem_cons_of_mem _ hl)).of_quiet hwf hq

/-- Fields that wait are written again. -/
theorem untouched_replay {ws : List Waiting} (hwf : j.space.tree.WellFormed) (hx : Hangs j.space.tree root x)
    (hws : Elsewhere j.space.tree x ws) (h : Job.replay o files ws j = .ok u j') :
    Untouched j.space.tree j'.space.tree x := by
  induction ws generalizing j with
  | nil =>
    obtain ⟨-, rfl⟩ := Action.pure_eq_ok.mp h
    exact .refl hwf (hx.live hwf)
  | cons y ws ih =>
    rw [Job.replay, Job.modifySink, Action.modify_bind_eq_ok] at h
    obtain ⟨_, j₁, h₁, h⟩ := Action.bind_eq_ok.mp h
    obtain ⟨hne, d, hy⟩ := hws y List.mem_cons_self
    have hq := quiet_of_refreshed hwf (Job.wrote_write (j := { j with sink := Job.dropWaiting j.sink }) hwf h₁).tree
    have hb := Meaning.beneath_write (j := { j with sink := Job.dropWaiting j.sink }) hwf h₁
    exact (Untouched.of_beneath hwf hx hy hne hb).trans (ih hq.wellFormed (hx.of_quiet hwf hq)
      (Elsewhere.of_quiet hwf (fun y hy => hws y (List.mem_cons_of_mem _ hy)) hq) h)

/-- The innermost level is completed. -/
theorem untouched_writeChunk (hwf : j.space.tree.WellFormed) (hx : Hangs j.space.tree root x)
    (hs : Unawaited j.space.tree x j.sink) (h : Job.writeChunk o files j = .ok u j') :
    Untouched j.space.tree j'.space.tree x := by
  rw [Job.writeChunk, Action.get_bind_eq_ok] at h
  refine untouched_replay hwf hx ?_ h
  cases hl : j.sink.levels with
  | nil => exact fun _ hy => absurd hy List.not_mem_nil
  | cons level levels => exact hs level (hl ▸ List.mem_cons_self)

/-- All levels are completed and closed. -/
theorem untouched_closeLevels {k : Nat} (hwf : j.space.tree.WellFormed) (hx : Hangs j.space.tree root x)
    (hs : Unawaited j.space.tree x j.sink) (h : Job.closeLevels o files k j = .ok u j') :
    Untouched j.space.tree j'.space.tree x := by
  induction k generalizing j with
  | zero =>
    obtain ⟨-, rfl⟩ := Action.pure_eq_ok.mp h
    exact .refl hwf (hx.live hwf)
  | succ k ih =>
    rw [Job.closeLevels] at h
    obtain ⟨_, j₁, h₁, h⟩ := Action.bind_eq_ok.mp h
    rw [Job.modifySink, Action.modify_bind_eq_ok] at h
    have hd := Job.completed_writeChunk hwf h₁
    have hq := quiet_of_refreshed hwf hd.tree
    exact (untouched_writeChunk hwf hx hs h₁).trans (ih (j := { j₁ with sink := j₁.sink.pop }) hq.wellFormed
      (hx.of_quiet hwf hq) (hs.of_completed hwf hd).pop h)

/-! ## Sinks -/

/-- In a walk, `x` does not wait. -/
def NeverWaits (w : Walk) (x : NodeId) : Prop := ∀ k, w.sink = some k → Unawaited w.space.tree x k

/-- A field that is not lazy does not wait in a sink that had no levels before. -/
theorem Coherent.neverWaits (hc : Coherent even w roots) (hi : Intact w) (heven : even)
    (heval : w.space.tree.attr? x "eval" ≠ some "lazy") : NeverWaits w x := by
  intro k hk level hl
  obtain ⟨ls, below, hls, hw⟩ := hi.waits k hk
  -- all levels are those of the walk
  have hlen : ls.length = k.levels.length := by
    rw [← hw.length_eq, length_holders]
    exact (hc.leveled.sink heven k hk).symm
  have hbelow : below = [] := by
    have := congrArg List.length hls
    rw [List.length_append] at this
    exact List.length_eq_zero_iff.mp (by omega)
  rw [hls, hbelow, List.append_nil] at hl
  obtain ⟨i, hi, rfl⟩ := List.getElem_of_mem hl
  have hk' := hw.length_eq ▸ hi
  intro y hy
  have hawaits := (List.forall₂_iff_get.mp hw).2 i hk' hi y hy
  refine ⟨?_, _, .of_awaits (hc.stack.mem_holders (List.getElem_mem hk')).2 hawaits⟩
  intro he
  exact heval (he ▸ hawaits.eval)

section

variable (hwf : w.space.tree.WellFormed) (hx : Hangs w.space.tree root x)

include hwf hx

/-- A field is filled and put into the open sink. -/
theorem untouched_item (hn : Hangs w.space.tree p n) (hname : w.space.tree.name n = "item") (hne : n ≠ x)
    (h₁ : fillItem f key n w = .ok () w₁) (h₂ : onSink (fun files => Job.setData o files n) w₁ = .ok u w') :
    Untouched w.space.tree w'.space.tree x := by
  obtain ⟨value, rfl⟩ := fillItem_ok h₁
  obtain ⟨q, hq, -⟩ := hn.parent
  have hr : Refreshed w.space.tree (putValue w.space.tree n value) :=
    refreshed_putValue hwf hq (by rw [hname]; decide)
  have hb := Meaning.beneath_putValue hwf (hn.live hwf) value
  rcases onSink_ok h₂ with ⟨-, rfl⟩ | ⟨s, j, -, hj, rfl⟩
  · exact .of_beneath hwf hx hn hne hb
  · exact .of_beneath hwf hx hn hne (hb.trans hwf (Meaning.beneath_setData hr.wellFormed hj))

variable (hs : NeverWaits w x)

include hs

/-- The innermost level of the open sink is completed. -/
theorem untouched_completeLevel (h : completeLevel o w = .ok u w') :
    Untouched w.space.tree w'.space.tree x ∧ NeverWaits w' x := by
  rcases onSink_ok h with ⟨-, rfl⟩ | ⟨k, j, hk, hj, rfl⟩
  · exact ⟨.refl hwf (hx.live hwf), hs⟩
  · refine ⟨untouched_writeChunk hwf hx (hs k hk) hj, ?_⟩
    rintro _ ⟨⟩
    exact (hs k hk).of_completed hwf (Job.completed_writeChunk hwf hj)

/-- The open sink is completed and handed out. -/
theorem untouched_takeSink {k k' : Sink} (hk : w.sink = some k) (h : takeSink o k w = .ok k' w') :
    Untouched w.space.tree w'.space.tree x := by
  unfold takeSink at h
  cases hj : Job.closeAll o w.files ⟨w.space, k⟩ with
  | error e j =>
    simp only [hj] at h
    cases h
  | ok v j =>
    simp only [hj] at h
    cases h
    rw [Job.closeAll, Action.get_bind_eq_ok] at hj
    rw [show (keep j.sink { w with sink := none, space := j.space }).space = j.space by rw [keep_rest]]
    exact untouched_closeLevels (j := ⟨w.space, k⟩) hwf hx (hs k hk) hj

end

/-! ## Visits -/

/-- An import changes the document that it leads to, and no other one. -/
theorem keeps_visitImport {v : Visit} (hwf : w.space.tree.WellFormed) (hP : Closed w.space.tree P)
    (hdocs : ∀ d ∈ documents w, IsRoot w.space.tree d)
    (hout : f.seesSecondary = true → w.space.tree.attr? n "type" = some "combined" → ∀ d ∈ documents w, ¬ P d)
    (hv : visitImport o f n w = .ok v w') :
    Keeps P w.space.tree w'.space.tree ∧ ∀ e, v = .enter e → ¬ P e.document.root := by
  rw [visitImport, Action.get_bind_eq_ok] at hv
  generalize hkind : w.space.tree.attr? n "type" = kind at hv hout
  split at hv
  · cases hi : (w.visible f).currentIndex with
    | none =>
      simp only [hi] at hv
      exact (Action.failAt_eq_ok.mp hv).elim
    | some i =>
      cases hc : (w.visible f).current? with
      | none =>
        simp only [hi, hc] at hv
        exact (Action.failAt_eq_ok.mp hv).elim
      | some c =>
        simp only [hi, hc] at hv
        obtain ⟨_, w₁, h₁, hv⟩ := Action.bind_eq_ok.mp hv
        obtain ⟨rfl, rfl⟩ := Action.pure_eq_ok.mp hv
        obtain ⟨d, hd, rfl⟩ := onDesk_ok h₁
        obtain ⟨hsee, hci⟩ := current_document hi hc
        have hcd : c.root ∈ documents w := List.mem_of_getElem? hci
        have hPc := hout hsee rfl c.root hcd
        refine ⟨?_, ?_⟩
        · exact (Import.edited_edit (d := ⟨w.space.tree, w.library⟩) hwf hP (hdocs c.root hcd).parent? hPc hd).keeps
        · rintro e ⟨⟩
          exact hPc
  · obtain ⟨d, w₁, h₁, hv⟩ := Action.bind_eq_ok.mp hv
    obtain ⟨_, w₂, h₂, hv⟩ := Action.bind_eq_ok.mp hv
    obtain ⟨rfl, rfl⟩ := Action.pure_eq_ok.mp hv
    obtain ⟨d₁, hd₁, rfl⟩ := onDesk_ok h₁
    obtain ⟨d₂, hd₂, rfl⟩ := onDesk_ok h₂
    obtain ⟨e, hg⟩ := Import.grafted_place (d := ⟨w.space.tree, w.library⟩) hwf hd₁
    have hk := hg.keeps hP
    have hnot := hg.not_mem hP
    refine ⟨hk.trans (Import.edited_edit (d := ⟨d₁.tree, d₁.library⟩) hg.wellFormed (hk.closed hP hwf hg.wellFormed)
      hg.parent?_root hnot hd₂).keeps, ?_⟩
    rintro e ⟨⟩
    exact hnot
  · obtain ⟨rfl, rfl⟩ := Action.pure_eq_ok.mp hv
    exact ⟨.refl hP, fun e he => by cases he⟩
  · exact (Action.failAt_eq_ok.mp hv).elim

/-- A document is entered. -/
theorem keeps_enter {e : Entry} (hwf : w.space.tree.WellFormed) (hroot : IsRoot w.space.tree e.document.root)
    (hP : Closed w.space.tree P) (hout : ¬ P e.document.root) (h : enter o e w = .ok u w') :
    Keeps P w.space.tree w'.space.tree := by
  obtain ⟨d, k, t, hd, ht, rfl⟩ := enter_ok h
  have hs := Import.spared_resolve (d := ⟨w.space.tree, w.library⟩) hwf hroot.live hroot.parent? hP hout hd
  have hP' := hs.keeps.closed hP hwf hs.wellFormed
  have hn : Import.Edited P d.tree
      (numberLoops w.nextLoop d.tree (d.tree.descendants e.document.root)).2 :=
    edited_numberLoops hs.wellFormed hP' fun n hn hPn =>
      hout (hP'.of_under (hs.wellFormed.mem_descendants.mp hn).1 hPn)
  rw [ht] at hn
  exact hs.keeps.trans hn.keeps

/-- The loop of a node is entered, and asked for its first run. -/
theorem Visiting.untouched_loop (h : Visiting w f more root rs p r n) (hx : Hangs w.space.tree m x)
    (hname : w.space.tree.name n = "repeat") (hcopy : ∀ c ∈ copies w.space.tree n, ¬ Under w.space.tree c x)
    (hl : startLoop f r.key n w = .ok u w') : Untouched w.space.tree w'.space.tree x := by
  rw [startLoop, Action.get_bind_eq_ok] at hl
  obtain ⟨l, w₁, h₁, hl⟩ := Action.bind_eq_ok.mp hl
  obtain ⟨⟨next, l'⟩, w₂, h₂, hl⟩ := Action.bind_eq_ok.mp hl
  obtain ⟨hat, -, hent, -⟩ := h.entered h₁
  obtain ⟨S, -, rfl, hturned, hstep⟩ := hat.turned h₂
  have hu := Untouched.of_entered h.wellFormed hx h.isRoot h.running.standing.inner h.parent? hname hcopy hent
  -- the first run begins where the loop stands
  have htree : w₂.space.tree = w₁.space.tree := by
    rw [hturned.tree]
    cases next with
    | true => exact (Continues.firstRun hstep hat.count).1
    | false => exact Loop.Turn.Ends.tree hstep
  have hspace : w'.space = w₂.space := by
    cases next with
    | true =>
      have hw := modifyFrame_eq_ok.mp hl
      simp only [hturned.frames] at hw
      rw [hw]
    | false =>
      obtain ⟨-, rfl⟩ := Action.pure_eq_ok.mp hl
      rfl
  rw [hspace, htree]
  exact hu

/-- A visit to another node leaves alone a field that does not wait, unless it drops a copy of a loop with it. -/
theorem Visiting.untouched {v : Visit} (h : Visiting w f more root rs p r n) (hx : Hangs w.space.tree m x)
    (hm : m ∈ root :: rs) (hne : n ≠ x) (hs : NeverWaits w x)
    (hcopy : ∀ c ∈ copies w.space.tree n, ¬ Under w.space.tree c x)
    (hdocs : ∀ d ∈ documents w, IsRoot w.space.tree d)
    (hsees : f.seesSecondary = true → rs = [] ∧ root ∉ documents w) (hv : Walk.visit o f r.key n w = .ok v w') :
    Untouched w.space.tree w'.space.tree x := by
  rw [Walk.visit, Action.get_bind_eq_ok] at hv
  obtain ⟨tag, htag, hv⟩ := Action.ofExcept_bind_eq_ok.mp hv
  have hname := tagOf_ok htag
  have hwf := h.wellFormed
  have hin := h.running.standing.inner
  cases tag with
  | item =>
    obtain ⟨_, w₁, h₁, hv⟩ := Action.bind_eq_ok.mp hv
    obtain ⟨_, w₂, h₂, hv⟩ := Action.bind_eq_ok.mp hv
    obtain ⟨-, rfl⟩ := Action.pure_eq_ok.mp hv
    exact untouched_item hwf hx (.of_item h.isRoot h.parent? hin hname) hname hne h₁ h₂
  | items =>
    obtain ⟨⟨t, scan⟩, hd, hv⟩ := Action.ofExcept_bind_eq_ok.mp hv
    obtain ⟨_, w₁, h₁, hv⟩ := Action.bind_eq_ok.mp hv
    obtain ⟨_, w₂, h₂, hv⟩ := Action.bind_eq_ok.mp hv
    obtain ⟨-, rfl⟩ := Action.pure_eq_ok.mp hv
    rw [modifyTree_eq_ok.mp h₁] at h₂
    have hw := modifyFrame_eq_ok.mp h₂
    simp only [h.frames] at hw
    rw [hw]
    show Untouched w.space.tree t x
    rcases descend_ok hwf h.parent? hd with ⟨-, rfl, -⟩ | ⟨first, next, -, -, ⟨-, rfl⟩ | ⟨-, hmark⟩⟩
    · exact .refl hwf (hx.live hwf)
    · exact .refl hwf (hx.live hwf)
    · exact .of_added hwf hx h.isRoot hin hmark
  | loop =>
    obtain ⟨_, w₁, h₁, hv⟩ := Action.bind_eq_ok.mp hv
    obtain ⟨-, rfl⟩ := Action.pure_eq_ok.mp hv
    exact h.untouched_loop hx hname hcopy h₁
  | document =>
    have hroot := hx.isRoot
    refine .of_keeps (Tree.closed_document hwf hroot.live hroot.parent?) hx.under
      (keeps_visitImport hwf (Tree.closed_document hwf hroot.live hroot.parent?) hdocs (fun hsee _ d hd => ?_) hv).1
    -- the document that is walked is no secondary one, if these can be seen
    obtain ⟨rfl, hnot⟩ := hsees hsee
    refine Tree.not_under_root (hdocs d hd).parent? ?_
    rintro rfl
    exact hnot (List.mem_singleton.mp hm ▸ hd)
  | writer =>
    have hw := h.atWriter hname
    rw [visitWriter, Action.get_bind_eq_ok] at hv
    cases hk : w.sink with
    | none =>
      simp only [hk] at hv
      obtain ⟨_, w₁, h₁, hv⟩ := Action.bind_eq_ok.mp hv
      obtain ⟨-, rfl⟩ := Action.pure_eq_ok.mp hv
      exact .of_beneath hwf hx (.of_writer hw) hne (Meaning.beneath_openSink hwf hw h₁)
    | some k =>
      simp only [hk] at hv
      obtain ⟨k', w₁, h₁, hv⟩ := Action.bind_eq_ok.mp hv
      rw [Action.modify_bind_eq_ok] at hv
      obtain ⟨-, rfl⟩ := Action.pure_eq_ok.mp hv
      have hu : Untouched w.space.tree w₁.space.tree x := untouched_takeSink hwf hx hs hk h₁
      exact hu
  | nop =>
    obtain ⟨-, rfl⟩ := Action.pure_eq_ok.mp hv
    exact .refl hwf (hx.live hwf)

/-! ## The end of a run -/

/-- What waits is written up. -/
theorem Asking.untouched (hwf : w.space.tree.WellFormed) (hx : Hangs w.space.tree m x) (hs : NeverWaits w x)
    (hask : Asking o w f more root p q l outer w₁) : Untouched w.space.tree w₁.space.tree x ∧ NeverWaits w₁ x := by
  have hlevel := hask.level
  split at hlevel
  · rw [pushLevel_eq_ok.mp hlevel]
    refine ⟨.refl hwf (hx.live hwf), fun k hk => ?_⟩
    obtain ⟨k', hk', rfl⟩ := Option.map_eq_some_iff.mp hk
    exact (hs k' hk').push
  · exact untouched_completeLevel hwf hx hs hlevel

/-- A loop that has ended is dropped. -/
theorem NeverWaits.of_dropped {S : Loop.Turn} (hs : NeverWaits w x) (ht : Turned w f more S w₁)
    (he : Loop.Turn.Ends ⟨l, w.space.tree, w.feedOf f l, f.scan⟩ S) (hd : dropLoop outer w₁ = .ok u w') :
    NeverWaits w' x := by
  rw [dropLoop_ok ht hd]
  intro k hk
  obtain ⟨k', hk', rfl⟩ := Option.map_eq_some_iff.mp hk
  show Unawaited w₁.space.tree x k'.pop
  rw [ht.tree, he.tree]
  exact (hs k' (ht.sink ▸ hk')).pop

/-- What holds of a field while the loops around a run are asked. -/
structure LeftAlone (w : Walk) (m x : NodeId) (w' : Walk) : Prop where
  untouched : Untouched w.space.tree w'.space.tree x
  hangs : Hangs w'.space.tree m x
  waits : NeverWaits w' x

section

variable (hrun : RunEnded w f more root p key parents)

include hrun

theorem Asking.leftAlone (h : LeftAlone w₂ m x w) (hask : Asking o w f more root p q l outer w₁) :
    LeftAlone w₂ m x w₁ := by
  obtain ⟨hu, hs⟩ := hask.untouched hrun.wellFormed h.hangs h.waits
  exact ⟨h.untouched.trans hu, h.hangs.of_quiet hrun.wellFormed (quiet_of_refreshed hrun.wellFormed hask.up.tree), hs⟩

/-- A loop ends. -/
theorem Asking.leftAlone_ends {S : Loop.Turn} {w₃ : Walk} (h : LeftAlone w₃ m x w)
    (hask : Asking o w f more root p q l outer w₁) (ht : Turned w₁ f more S w₂)
    (he : Loop.Turn.Ends ⟨l, w₁.space.tree, w₁.feedOf f l, f.scan⟩ S) (hd : dropLoop outer w₂ = .ok u w') :
    LeftAlone w₃ m x w' := by
  have h₁ := hask.leftAlone hrun h
  have htree : w'.space.tree = w₁.space.tree := by
    rw [dropLoop_ok ht hd]
    exact ht.tree.trans he.tree
  exact ⟨htree ▸ h₁.untouched, htree ▸ h₁.hangs, h₁.waits.of_dropped ht he hd⟩

variable (hwf : w.space.tree.WellFormed) (hx : Hangs w.space.tree m x) (hs : NeverWaits w x)

include hwf hx hs

/-- The loops around a run are asked. -/
theorem RunEnded.untouched (h : closeLoops o parents w = .ok u w') : Untouched w.space.tree w'.space.tree x := by
  refine hrun.closeLoops_induct (P := fun w' _ _ _ => LeftAlone w m x w')
    (Q := fun w' => Untouched w.space.tree w'.space.tree x) ⟨.refl hwf (hx.live hwf), hx, hs⟩ h ?_ ?_ ?_ ?_
  · intro w₀ f p q key parents l outer w₁ S w₂ w₃ hrun hP hask hend
    exact hask.leftAlone_ends hrun hP hend.turned hend.ends hend.dropped
  · intro w₀ f p key parents hrun hP _
    exact hP.untouched
  · intro w₀ f p q key parents l outer w₁ S w₂ hrun hP hask _ hturned hc
    have h₁ := hask.leftAlone hrun hP
    have hat := hask.atEnd
    have hpa : w₁.space.tree.parent? l.anchor = some q := by rw [hat.anchor, hat.parent]
    have hname : w₁.space.tree.name l.anchor = "repeat" := by rw [hat.anchor, hat.name]
    refine h₁.untouched.trans ?_
    show Untouched w₁.space.tree w₂.space.tree x
    rw [hturned.tree]
    exact .of_advanced hat.wellFormed h₁.hangs hat.isRoot hat.standing.inner hpa hname hc.advanced
  · intro w₀ f p q key parents l outer w₁ S w₂ w₃ hrun hP hask _ hturned hends hd _
    exact (hask.leftAlone_ends hrun hP hturned hends hd).untouched

/-- Until a loop is asked. -/
theorem RunEnded.untouched_asks (h : Asks o w parents a w₁) (hf : w₁.frames = g :: more) (hl : g.loops = l :: outer) :
    LeftAlone w m x w₁ := by
  obtain ⟨w₀, g', key', ps, hrun', hP, hf', hask⟩ := hrun.asks_induct (P := fun w' _ _ _ => LeftAlone w m x w')
    ⟨.refl hwf (hx.live hwf), hx, hs⟩ h fun hrun hP hask hend =>
      hask.leftAlone_ends hrun hP hend.turned hend.ends hend.dropped
  rw [hf] at hf'
  obtain ⟨rfl, -⟩ := List.cons.inj hf'
  obtain ⟨q, hask⟩ := hask l outer hl
  exact hask.leftAlone hrun' hP

end

/-! ## Rounds -/

theorem Untouched.attr? (hu : Untouched t t' x) (key : String) : t'.attr? x key = t.attr? x key := by
  unfold Tree.attr?
  rw [Meaning.attrs_of_outline (hu x .self).2.2]

/-- The output that is due is opened. -/
theorem Coherent.untouched_rotate (hc : Coherent even w roots) (hx : Hangs w.space.tree m x)
    (hname : w.space.tree.name x = "item") (hr : Walk.rotate o w = .ok u w') :
    Untouched w.space.tree w'.space.tree x := by
  have hwf := hc.wellFormed
  rw [Walk.rotate, Action.get_bind_eq_ok] at hr
  cases hrot : w.rotation with
  | none =>
    simp only [hrot] at hr
    obtain ⟨-, rfl⟩ := Action.pure_eq_ok.mp hr
    exact .refl hwf (hx.live hwf)
  | some n =>
    obtain ⟨-, root, -, hw⟩ := hc.rotation n hrot
    cases hf : w.frames with
    | nil =>
      simp only [hrot, hf] at hr
      obtain ⟨-, rfl⟩ := Action.pure_eq_ok.mp hr
      exact .refl hwf (hx.live hwf)
    | cons f more =>
      simp only [hrot, hf] at hr
      rw [Action.set_bind_eq_ok] at hr
      have hb := Meaning.beneath_openSink (w := { w with frames := f :: more, rotation := none }) hwf hw hr
      refine .of_beneath hwf hx (.of_writer hw) ?_ hb
      rintro rfl
      rw [hw.name] at hname
      exact absurd hname (by decide)

/-- A document ends. -/
theorem Coherent.untouched_leave (hc : Coherent even w (root :: rs)) (hx : Hangs w.space.tree m x) (hm : m ∈ rs)
    (hs : NeverWaits w x) (hf : w.frames = f :: more) (hl : Walk.leave o w = .ok u w') :
    Untouched w.space.tree w'.space.tree x := by
  have hwf := hc.wellFormed
  have hstack := hc.stack
  rw [hf] at hstack
  obtain ⟨hroot, -, hfresh, howned⟩ := hstack.head
  obtain ⟨w₁, h₁, hd, rfl⟩ := leave_ok hwf hf hl
  have hq := quiet_of_refreshed hwf hd.tree
  have hu₁ := (untouched_completeLevel hwf hx hs h₁).1
  have hx₁ := hx.of_quiet hwf hq
  cases ho : f.owned with
  | none => exact hu₁
  | some r' =>
    obtain ⟨rfl, -⟩ := howned r' ho
    have hroot₁ := hq.isRoot hroot
    have hne : r' ≠ m := fun he => hfresh (he ▸ hm)
    have hP := Tree.closed_document hq.wellFormed hx₁.isRoot.live hx₁.isRoot.parent?
    exact hu₁.trans (.of_keeps hP hx₁.under
      (hP.keeps_release hq.wellFormed hroot₁.live (Tree.not_under_root hroot₁.parent? hne)))

/-- A document is gone into. -/
theorem untouched_enter {e : Entry} (hwf : w.space.tree.WellFormed) (hx : Hangs w.space.tree m x)
    (he : Enterable w roots e) (hm : m ∈ roots) (h : enter o e w = .ok u w') :
    Untouched w.space.tree w'.space.tree x := by
  have hne : e.document.root ≠ m := fun heq => he.fresh (heq ▸ hm)
  have hP := Tree.closed_document hwf hx.isRoot.live hx.isRoot.parent?
  exact .of_keeps hP hx.under (keeps_enter hwf he.isRoot hP (Tree.not_under_root he.isRoot.parent? hne) h)

end Stencil.Walk
