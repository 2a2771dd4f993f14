/-
  When a lazy field is written again.

  A lazy field is left to wait on the innermost level of the sink.  A level belongs to a document, or to a loop in it
  that is in its second run or in a later one (`owners`): a loop gets a level of its own only at the end of its first
  run, and what has been put into the sink in that run waits further out.

    1. Rounds open levels further inside, and complete and close these again.  So a field waits where it has been left
       (`LeftOn`), until the run ends of the loop that its level belongs to, or the document ends.
    2. Then its level is the innermost one and is completed (`Completes`).  In its turn the field is written again, with
       the value that it has by then (`Job.Rewrites`).

  So what is put into the sink from the second run of a loop on is written again at the end of that very run, and what
  is put there in the first run is written again together with what is around the loop
  (`lazy_field_waits_for_end_of_run`).
-/
import Mathlib.Logic.Relation
import Stencil.Proofs.Field.Replay
import Stencil.Proofs.Walk.Counting
import Stencil.Proofs.Walk.Intact

set_option autoImplicit false

namespace Stencil

open Relation (ReflTransGen)

/-! ## Completing a level -/

namespace Job

open Stencil.Field (WorkedOut)

variable {o : Options} {files : Files} {x : Waiting} {j j' : Job} {item : NodeId} {ws ws' level : List Waiting}
  {levels : List (List Waiting)}

/-- The field `x` waits on the innermost level.  When the level is completed, those that are newer are written before
    it; then it is written at its place, with the text that it has by then; and then those that are older. -/
def Rewrites (o : Options) (files : Files) (x : Waiting) (j j' : Job) : Prop :=
  ∃ newer older levels j₁ text w spot l, j.sink.levels = (newer ++ x :: older) :: levels
    ∧ replay o files newer j = .ok () j₁
    ∧ WorkedOut o (j₁.sink.reader files) x.item x.offset j₁.space text w spot l
    ∧ replay o files older
        ⟨(w.keepResult x.item text).keepWidth x.item l.recorded, (dropWaiting j₁.sink).emit spot l.bytes⟩ = .ok () j'

theorem replay_append (h : replay o files (ws ++ ws') j = .ok () j') :
    ∃ j₁, replay o files ws j = .ok () j₁ ∧ replay o files ws' j₁ = .ok () j' := by
  induction ws generalizing j with
  | nil => exact ⟨j, rfl, h⟩
  | cons w ws ih =>
    rw [List.cons_append, replay, modifySink, Action.modify_bind_eq_ok] at h
    obtain ⟨_, j₁, h₁, h⟩ := Action.bind_eq_ok.mp h
    obtain ⟨j₂, h₂, h'⟩ := ih h
    refine ⟨j₂, ?_, h'⟩
    rw [replay, modifySink, Action.modify_bind_eq_ok]
    exact Action.bind_eq_ok.mpr ⟨(), j₁, h₁, h₂⟩

/-- Completing the innermost level writes each field again that waits on it. -/
theorem rewrites_of_writeChunk (hl : j.sink.levels = level :: levels) (hx : x ∈ level)
    (h : writeChunk o files j = .ok () j') : Rewrites o files x j j' := by
  obtain ⟨newer, older, rfl⟩ := List.append_of_mem hx
  rw [writeChunk, Action.get_bind_eq_ok, hl, List.headD_cons] at h
  obtain ⟨j₁, h₁, h⟩ := replay_append h
  rw [replay, modifySink, Action.modify_bind_eq_ok] at h
  obtain ⟨_, j₂, h₂, h⟩ := Action.bind_eq_ok.mp h
  obtain ⟨text, w, spot, l, hw, rfl⟩ := workedOut_of_write h₂
  rw [reader_dropWaiting] at hw
  exact ⟨newer, older, levels, j₁, text, w, spot, l, hl, h₁, hw, h⟩

/-- A lazy field without an offset waits on the innermost level, with the position at which it has been written. -/
theorem queued_setData (hlazy : j.space.tree.attr? item "eval" = some "lazy")
    (hplace : j.space.tree.attr? item "offset" = none) (h : setData o files item j = .ok () j') :
    ∃ level levels, j'.sink.levels = (⟨item, some j.sink.stream.position⟩ :: level) :: levels := by
  cases hw : write o files item none { j with sink := j.sink.flush } with
  | error e j₁ =>
    rw [setData_of_write_error hw] at h
    cases h
  | ok u j₁ =>
    have hattrs := sameAttrs_write o files item none { j with sink := j.sink.flush }
    rw [Action.outcome_of_ok hw] at hattrs
    have hplace₁ := (hattrs item "offset").trans hplace
    cases hl : j₁.sink.levels with
    | nil =>
      rw [setData, Action.get_bind_eq_ok, Action.get_bind_eq_ok, modifySink, Action.modify_bind_eq_ok,
        Action.bind_of_ok hw, if_pos (by simpa using hlazy), Action.get_bind_eq_ok, Action.get_bind_eq_ok] at h
      simp only [hl] at h
      exact (Action.fail_eq_ok.mp h).elim
    | cons level levels =>
      rw [setData_of_lazy hlazy hplace₁ hl hw] at h
      cases h
      exact ⟨level, levels, rfl⟩

end Job

namespace Walk

open Loop.Turn (Continues)

variable {t : Tree} {rs roots parents : List NodeId} {root p q n : NodeId} {r : Run} {f g : Frame}
  {frames more : List Frame} {w w₁ w' v v' : Walk} {o : Options} {key : String} {l : Loop} {loops outer : List Loop}
  {x : Waiting} {i : Nat} {u : Unit} {even : Prop} {s : Setup} {progress : Progress}

/-! ## Fields on the levels of the sink -/

/-- The field waits in the open sink, so many levels below the innermost one. -/
def WaitsBelow (w : Walk) (i : Nat) (x : Waiting) : Prop :=
  ∃ k level, w.sink = some k ∧ k.levels[i]? = some level ∧ x ∈ level

/-- The field waits on the innermost level of a sink, and is written again when the level is completed. -/
def WritesAgain (o : Options) (x : Waiting) (w w' : Walk) : Prop :=
  ∃ k k', w.sink = some k ∧ w'.sink = some k' ∧ Job.Rewrites o w.files x ⟨w.space, k⟩ ⟨w'.space, k'⟩

namespace WaitsBelow

theorem of_sink (h : WaitsBelow w i x) (hs : w'.sink = w.sink) : WaitsBelow w' i x := by
  obtain ⟨k, level, hk, hl, hx⟩ := h
  exact ⟨k, level, hs.trans hk, hl, hx⟩

/-- A level is opened. -/
theorem push (h : WaitsBelow w i x) (hs : w'.sink = w.sink.map Sink.push) : WaitsBelow w' (i + 1) x := by
  obtain ⟨k, level, hk, hl, hx⟩ := h
  exact ⟨k.push, level, by rw [hs, hk]; rfl, hl, hx⟩

/-- The innermost level is closed, and the field waits on another one. -/
theorem pop (h : WaitsBelow w (i + 1) x) (hs : w'.sink = w.sink.map Sink.pop) : WaitsBelow w' i x := by
  obtain ⟨k, level, hk, hl, hx⟩ := h
  refine ⟨k.pop, level, by rw [hs, hk]; rfl, ?_, hx⟩
  show k.levels.tail[i]? = some level
  rw [List.getElem?_tail]
  exact hl

/-- A field is put into the sink; it may be left to wait on the innermost level. -/
theorem put {item : NodeId} {k : Sink} {j : Job} (h : WaitsBelow w i x) (hk : w.sink = some k)
    (hput : Job.Put t item ⟨w.space, k⟩ j) (hs : w'.sink = some j.sink) : WaitsBelow w' i x := by
  obtain ⟨k', level, hk', hl, hx⟩ := h
  obtain rfl := Option.some.inj (hk.symm.trans hk')
  have hlevels := hput.levels
  split at hlevels
  · obtain ⟨offset, top, levels, htop, hnew⟩ := hlevels
    replace htop : k.levels = top :: levels := htop
    rw [htop] at hl
    cases i with
    | zero =>
      obtain rfl := Option.some.inj hl
      exact ⟨j.sink, _, hs, by rw [hnew]; rfl, List.mem_cons_of_mem _ hx⟩
    | succ i => exact ⟨j.sink, level, hs, by rw [hnew]; exact hl, hx⟩
  · exact ⟨j.sink, level, hs, by rw [hlevels]; exact hl, hx⟩

/-- The innermost level is completed, and the field waits on another one. -/
theorem completeLevel (h : WaitsBelow w (i + 1) x) (hwf : w.space.tree.WellFormed)
    (hc : Walk.completeLevel o w = .ok u w') : WaitsBelow w' (i + 1) x := by
  obtain ⟨k, level, hk, hl, hx⟩ := h
  rcases onSink_ok hc with ⟨hnone, -⟩ | ⟨k', j, hk', hj, rfl⟩
  · rw [hk] at hnone
    cases hnone
  · obtain rfl := Option.some.inj (hk.symm.trans hk')
    refine ⟨j.sink, level, rfl, ?_, hx⟩
    have hlevels := (Job.completed_writeChunk hwf hj).levels
    dsimp only at hlevels
    cases hks : k.levels with
    | nil =>
      rw [hks] at hl
      cases hl
    | cons top levels =>
      rw [hks] at hl hlevels
      rw [hlevels]
      exact hl

/-- The level of the field is the innermost one, and it is completed. -/
theorem writesAgain (h : WaitsBelow w 0 x) (hc : Walk.completeLevel o w = .ok u w') : WritesAgain o x w w' := by
  obtain ⟨k, level, hk, hl, hx⟩ := h
  rcases onSink_ok hc with ⟨hnone, -⟩ | ⟨k', j, hk', hj, rfl⟩
  · rw [hk] at hnone
    cases hnone
  · obtain rfl := Option.some.inj (hk.symm.trans hk')
    obtain ⟨levels, hks⟩ : ∃ levels, k.levels = level :: levels := by
      cases hks : k.levels with
      | nil =>
        rw [hks] at hl
        cases hl
      | cons top levels =>
        rw [hks] at hl
        obtain rfl := Option.some.inj hl
        exact ⟨levels, rfl⟩
    exact ⟨k, j.sink, hk, rfl, Job.rewrites_of_writeChunk (j := ⟨w.space, k⟩) hks hx hj⟩

end WaitsBelow

/-! ## What the levels belong to -/

/-- What a level of the sink belongs to: the document that has the frames `around` around it, or the innermost one of
    the loops `loops` that run in it. -/
structure Owner where
  around : List Frame
  loops : List Loop
  deriving DecidableEq

/-- What the levels of the sink belong to, the innermost first; like `holders`, but a document is told by the frames
    around it. -/
def owners : List Frame → List Owner
  | [] => []
  | f :: more => (levelLoops f.loops).map (Owner.mk more) ++ owners more

variable {k : Owner}

theorem owners_congr (h : levelLoops g.loops = levelLoops f.loops) : owners (g :: more) = owners (f :: more) := by
  rw [owners, owners, h]

theorem owners_of_nil (h : f.loops = []) : owners (f :: more) = ⟨more, []⟩ :: owners more := by
  rw [owners, h]
  rfl

/-- From its second run on a loop has a level of its own. -/
theorem owners_of_le (hf : f.loops = l :: outer) (h : 2 ≤ l.count) :
    owners (f :: more) = ⟨more, l :: outer⟩ :: owners ({ f with loops := outer } :: more) := by
  rw [owners, hf, levelLoops_cons_of_le h]
  rfl

theorem owners_of_lt (hf : f.loops = l :: outer) (h : l.count < 2) :
    owners (f :: more) = owners ({ f with loops := outer } :: more) := by
  rw [owners, hf, levelLoops_cons_of_lt h]
  rfl

theorem length_around_lt (h : k ∈ owners frames) : k.around.length < frames.length := by
  induction frames with
  | nil => cases h
  | cons f more ih =>
    rw [List.length_cons]
    rcases List.mem_append.mp h with h | h
    · obtain ⟨loops, -, rfl⟩ := List.mem_map.mp h
      exact Nat.lt_succ_self _
    · exact Nat.lt_succ_of_lt (ih h)

/-- In its document, a level belongs to loops that run there. -/
theorem suffix_of_mem_owners (h : k ∈ owners (g :: k.around)) : k.loops <:+ g.loops := by
  rcases List.mem_append.mp h with h | h
  · obtain ⟨loops, hl, hk⟩ := List.mem_map.mp h
    rw [← hk]
    exact suffix_of_mem_levelLoops hl
  · exact absurd (length_around_lt h) (Nat.lt_irrefl _)

/-- The innermost level belongs to the innermost loop if that is in its second run or in a later one. -/
theorem loops_eq_iff_of_head? (hf : f.loops = l :: outer) (h : (owners (f :: more)).head? = some k) :
    k.loops = l :: outer ↔ 2 ≤ l.count := by
  by_cases hc : 2 ≤ l.count
  · rw [owners_of_le hf hc] at h
    obtain rfl := Option.some.inj h
    exact iff_of_true rfl hc
  · refine iff_of_false (fun hk => ?_) hc
    obtain ⟨top, rest, htop, -⟩ := exists_innermost outer
    rw [owners_of_lt hf (Nat.lt_of_not_le hc), owners, htop] at h
    obtain rfl := Option.some.inj h
    have hlength := (suffix_of_mem_levelLoops (htop ▸ List.mem_cons_self)).length_le
    rw [show top = l :: outer from hk, List.length_cons] at hlength
    omega

/-! ## A field stays where it is left -/

/-- The field waits on the level of `k`. -/
def LeftOn (w : Walk) (k : Owner) (x : Waiting) : Prop := ∃ i : Nat, (owners w.frames)[i]? = some k ∧ WaitsBelow w i x

namespace LeftOn

theorem of_owners (h : LeftOn w k x) (ho : owners w'.frames = owners w.frames)
    (hw : ∀ i, WaitsBelow w i x → WaitsBelow w' i x) : LeftOn w' k x := by
  obtain ⟨i, hi, hwaits⟩ := h
  exact ⟨i, by rw [ho]; exact hi, hw i hwaits⟩

/-- A document is gone into. -/
theorem entered (h : LeftOn w k x) (hf : w'.frames = g :: w.frames) (hg : g.loops = [])
    (hs : w'.sink = w.sink.map Sink.push) : LeftOn w' k x := by
  obtain ⟨i, hi, hwaits⟩ := h
  refine ⟨i + 1, ?_, hwaits.push hs⟩
  rw [hf, owners_of_nil hg]
  exact hi

/-- No change of output is due, as the sink is open. -/
theorem rotate_eq (hc : Coherent even w roots) (h : LeftOn w k x) (hr : Walk.rotate o w = .ok u w') : w' = w := by
  obtain ⟨i, -, s, level, hs, -⟩ := h
  rw [Walk.rotate, Action.get_bind_eq_ok] at hr
  cases hrot : w.rotation with
  | none =>
    simp only [hrot] at hr
    exact (Action.pure_eq_ok.mp hr).2.symm
  | some n =>
    rw [(hc.rotation n hrot).1] at hs
    cases hs

/-- In its first run a loop has no level of its own. -/
theorem started (h : LeftOn w k x) (hat : Visiting w f more root rs p r n)
    (hl : startLoop f r.key n w = .ok u w') : LeftOn w' k x := by
  rw [startLoop, Action.get_bind_eq_ok] at hl
  obtain ⟨l, w₁, h₁, hl⟩ := Action.bind_eq_ok.mp hl
  obtain ⟨⟨next, l'⟩, w₂, h₂, hl⟩ := Action.bind_eq_ok.mp hl
  obtain ⟨hstart, -⟩ := hat.entered h₁
  obtain ⟨S, -, rfl, hturned, hstep⟩ := hstart.turned h₂
  have hsink : w₂.sink = w.sink := by
    obtain ⟨t₁, -, rfl⟩ := onTree_ok h₁
    exact hturned.sink
  cases next with
  | true =>
    have hw := modifyFrame_eq_ok.mp hl
    simp only [hturned.frames] at hw
    subst hw
    have hfirst : S.loop.count < 2 := by
      rw [Continues.count hstep]
      show l.count + 1 < 2
      rw [hstart.count]
      omega
    refine h.of_owners ?_ fun i hi => hi.of_sink hsink
    rw [hat.frames]
    exact owners_congr (levelLoops_cons_of_lt hfirst)
  | false =>
    obtain ⟨-, rfl⟩ := Action.pure_eq_ok.mp hl
    refine h.of_owners ?_ fun i hi => hi.of_sink hsink
    rw [hturned.frames, hat.frames]
    exact owners_congr rfl

/-- A visit: the sink is handed out, or the field waits on. -/
theorem visit {v : Visit} (h : LeftOn w k x) (hat : Visiting w f more root rs p r n)
    (hrs : ∀ r ∈ rs, IsRoot w.space.tree r) (hdocs : ∀ d ∈ documents w, IsRoot w.space.tree d)
    (hsees : f.seesSecondary = true → rs = [] ∧ root ∉ documents w) (hv : Walk.visit o f r.key n w = .ok v w') :
    w'.sink = none ∨ LeftOn w' k x := by
  have hown : ∀ g : Frame, levelLoops g.loops = levelLoops f.loops → owners (g :: more) = owners w.frames := by
    intro g hg
    rw [hat.frames]
    exact owners_congr hg
  rw [Walk.visit, Action.get_bind_eq_ok] at hv
  obtain ⟨tag, htag, hv⟩ := Action.ofExcept_bind_eq_ok.mp hv
  cases tag with
  | item =>
    obtain ⟨_, w₁, h₁, hv⟩ := Action.bind_eq_ok.mp hv
    obtain ⟨_, w₂, h₂, hv⟩ := Action.bind_eq_ok.mp hv
    obtain ⟨rfl, rfl⟩ := Action.pure_eq_ok.mp hv
    obtain ⟨value, rfl⟩ := fillItem_ok h₁
    have hr : (putValue w.space.tree n value).WellFormed :=
      (refreshed_putValue hat.wellFormed hat.parent? (by rw [tagOf_ok htag]; decide)).wellFormed
    rcases onSink_ok h₂ with ⟨hnone, rfl⟩ | ⟨s, j, hs, hj, rfl⟩
    · exact .inl hnone
    · refine .inr (h.of_owners rfl fun i hi => ?_)
      exact WaitsBelow.put (w := { w with space := { w.space with tree := putValue w.space.tree n value } })
        (hi.of_sink rfl) hs (Job.put_setData hr hj) rfl
  | items =>
    obtain ⟨⟨t, scan⟩, hd, hv⟩ := Action.ofExcept_bind_eq_ok.mp hv
    obtain ⟨_, w₁, h₁, hv⟩ := Action.bind_eq_ok.mp hv
    obtain ⟨_, w₂, h₂, hv⟩ := Action.bind_eq_ok.mp hv
    obtain ⟨rfl, rfl⟩ := Action.pure_eq_ok.mp hv
    rw [modifyTree_eq_ok.mp h₁] at h₂
    have hw := modifyFrame_eq_ok.mp h₂
    simp only [hat.frames] at hw
    subst hw
    exact .inr (h.of_owners (hown { f with scan } rfl) fun i hi => hi.of_sink rfl)
  | loop =>
    obtain ⟨_, w₁, h₁, hv⟩ := Action.bind_eq_ok.mp hv
    obtain ⟨rfl, rfl⟩ := Action.pure_eq_ok.mp hv
    exact .inr (h.started hat h₁)
  | document =>
    obtain ⟨-, hrest, -⟩ := hat.around_document hrs hdocs hsees hv
    exact .inr (h.of_owners (by rw [hrest]) fun i hi => hi.of_sink (by rw [hrest]))
  | writer =>
    rw [visitWriter, Action.get_bind_eq_ok] at hv
    cases hs : w.sink with
    | none =>
      obtain ⟨i, -, s, level, hs', -⟩ := h
      rw [hs] at hs'
      cases hs'
    | some s =>
      simp only [hs] at hv
      obtain ⟨s', w₁, h₁, hv⟩ := Action.bind_eq_ok.mp hv
      rw [Action.modify_bind_eq_ok] at hv
      obtain ⟨rfl, rfl⟩ := Action.pure_eq_ok.mp hv
      have ht := taken_takeSink hat.wellFormed h₁
      refine .inl ?_
      show w₁.sink = none
      rw [ht.rest]
  | nop =>
    obtain ⟨rfl, rfl⟩ := Action.pure_eq_ok.mp hv
    exact .inr h

end LeftOn

/-! ## The end of a run -/

/-- The loop of a run is asked, ends and leads outward: the loops around the run that it stands in are asked next. -/
inductive LeadsOutward (o : Options) : Walk × List NodeId → Walk × List NodeId → Prop
  | ends {w w₁ w₂ w₃ : Walk} {parent : NodeId} {parents : List NodeId} {f : Frame} {more : List Frame} {l l' : Loop}
      {outer : List Loop} (name : w.space.tree.name parent = "repeat")
      (level : (if (w.space.tree.computed parent).seq = some 0 then pushLevel else Walk.completeLevel o) w = .ok () w₁)
      (frames : w₁.frames = f :: more) (loops : f.loops = l :: outer) (ended : turn f l w₁ = .ok (false, l') w₂)
      (dropped : dropLoop outer w₂ = .ok () w₃) (cascades : cascades w₃.space.tree outer parent = true) :
      LeadsOutward o (w, parent :: parents) (w₃, parents)

/-- Asking the loops around a run that has ended in the state `start`, `closeLoops` comes to the end of a run of the
    loop that a level belongs to, and completes the level. -/
inductive EndsRun (o : Options) (start : Walk) (parents : List NodeId) : Owner → Walk → Walk → Prop
  | loop {before after : Walk} {f : Frame} {more : List Frame} {l : Loop} {outer : List Loop} {ps : List NodeId}
      (outward : ReflTransGen (LeadsOutward o) (start, parents) (before, l.anchor :: ps))
      (name : before.space.tree.name l.anchor = "repeat") (frames : before.frames = f :: more)
      (loops : f.loops = l :: outer) (again : (before.space.tree.computed l.anchor).seq ≠ some 0)
      (completed : Walk.completeLevel o before = .ok () after) : EndsRun o start parents ⟨more, l :: outer⟩ before after

/-- In the round behind `w`, what a level belongs to comes to its end, and the level is completed: the document ends, or
    a run of the loop does. -/
inductive Completes (o : Options) (w : Walk) : Owner → Walk → Walk → Prop
  | document {before after : Walk} {f : Frame} {more : List Frame} (rotated : rotate o w = .ok () before)
      (frames : before.frames = f :: more) (ended : takeRun f = none)
      (completed : Walk.completeLevel o before = .ok () after) : Completes o w ⟨more, []⟩ before after
  | run {start before after : Walk} {g : Frame} {r : Run} {k : Owner} (taken : TakesUp o w g r start)
      (next : r.next = none) (ends : EndsRun o start (start.space.tree.ancestors r.first) k before after) :
      Completes o w k before after

/-- When the loop of a run is asked, its level is completed, or opened if there is none yet; and the field is written
    again if it waits on that level. -/
theorem LeftOn.asking (h : LeftOn w k x) (hrun : RunEnded w f more root p key parents)
    (hask : Asking o w f more root p q l outer w₁) :
    k = ⟨more, l :: outer⟩ ∧ (w.space.tree.computed p).seq ≠ some 0 ∧ Walk.completeLevel o w = .ok () w₁
        ∧ WritesAgain o x w w₁
      ∨ ∃ i : Nat, (owners ({ f with loops := outer } :: more))[i]? = some k ∧ WaitsBelow w₁ (i + 1) x := by
  obtain ⟨i, hi, hwaits⟩ := h
  have hloops := hask.atEnd.loops
  have hstarted := hask.atEnd.started
  have hseq := hrun.seq_loop hask.up hask.atEnd
  have hlevel := hask.level
  rw [hrun.frames] at hi
  by_cases hc : 2 ≤ l.count
  · have hagain : (w.space.tree.computed p).seq ≠ some 0 := by
      rw [hseq, ne_eq, Option.some.injEq]
      omega
    rw [if_neg hagain] at hlevel
    rw [owners_of_le hloops hc] at hi
    cases i with
    | zero => exact .inl ⟨(Option.some.inj hi).symm, hagain, hlevel, hwaits.writesAgain hlevel⟩
    | succ i => exact .inr ⟨i, hi, hwaits.completeLevel hrun.wellFormed hlevel⟩
  · have hfirst : (w.space.tree.computed p).seq = some 0 := by
      rw [hseq, Option.some.injEq]
      omega
    rw [if_pos hfirst] at hlevel
    rw [owners_of_lt hloops (Nat.lt_of_not_le hc)] at hi
    exact .inr ⟨i, hi, hwaits.push (by rw [pushLevel_eq_ok.mp hlevel])⟩

/-- A loop that has ended gives its level up, and the field waits on another one. -/
theorem leftOn_dropped {S : Loop.Turn} {w₂ w₃ : Walk}
    (hi : (owners ({ f with loops := outer } :: more))[i]? = some k) (hwaits : WaitsBelow w₁ (i + 1) x)
    (ht : Turned w₁ f more S w₂) (hd : dropLoop outer w₂ = .ok () w₃) : LeftOn w₃ k x := by
  have hpopped : WaitsBelow w₃ i x := (hwaits.of_sink ht.sink).pop (by rw [dropLoop_ok ht hd])
  refine ⟨i, ?_, hpopped⟩
  rw [dropLoop_ok ht hd, ← hi]
  exact congrArg (·[i]?) (owners_congr rfl)

/-- Asking the loops around a run, the level of the field has been completed, and the field has been written again. -/
def WrittenAtEnd (o : Options) (start : Walk) (ps : List NodeId) (k : Owner) (x : Waiting) : Prop :=
  ∃ before after, EndsRun o start ps k before after ∧ WritesAgain o x before after

section

variable {start : Walk} {ps : List NodeId}

/-- A loop is asked, and the field waits on; or it is written again now, or has been at the end of a run further
    inside. -/
theorem RunEnded.left_asking (hrun : RunEnded w f more root p key parents)
    (hcome : ReflTransGen (LeadsOutward o) (start, ps) (w, parents))
    (hleft : LeftOn w k x ∨ k.around = more ∧ f.loops.length < k.loops.length ∧ WrittenAtEnd o start ps k x)
    (hask : Asking o w f more root p q l outer w₁) :
    (k.around = more ∧ outer.length < k.loops.length ∧ (k.loops = l :: outer ∨ (l :: outer).length < k.loops.length)
        ∧ WrittenAtEnd o start ps k x)
      ∨ ∃ i : Nat, (owners ({ f with loops := outer } :: more))[i]? = some k ∧ WaitsBelow w₁ (i + 1) x := by
  have hloops := hask.atEnd.loops
  rcases hleft with hleft | ⟨haround, hlength, hwritten⟩
  · rcases hleft.asking hrun hask with ⟨rfl, hagain, hcompleted, hwrites⟩ | hwaits
    · refine .inl ⟨rfl, Nat.lt_succ_self _, .inl rfl, w, w₁, ?_, hwrites⟩
      have hanchor := hask.atEnd.anchor
      subst hanchor
      rw [hrun.parents] at hcome
      exact .loop hcome hask.name hrun.frames hloops hagain hcompleted
    · exact .inr hwaits
  · rw [hloops] at hlength
    exact .inl ⟨haround, (Nat.lt_succ_self _).trans hlength, .inr hlength, hwritten⟩

/-- A level of a loop is gone when fewer loops run in the document. -/
theorem not_mem_owners (haround : k.around = more) (hlength : g.loops.length < k.loops.length) :
    k ∉ owners (g :: more) := by
  intro hk
  subst haround
  exact absurd (suffix_of_mem_owners hk).length_le (Nat.not_le_of_lt hlength)

/-- Asking the loops around a run: the field waits on, or its level is completed at the end of a run of the loop that
    the level belongs to. -/
theorem RunEnded.left (hrun : RunEnded start f more root p key ps) (h : LeftOn start k x)
    (hc : closeLoops o ps start = .ok u w') :
    LeftOn w' k x ∨ k ∉ owners w'.frames ∧ WrittenAtEnd o start ps k x := by
  -- once the field has been written again, only loops further outside are asked
  refine hrun.closeLoops_induct
    (P := fun w f _ parents => ReflTransGen (LeadsOutward o) (start, ps) (w, parents)
      ∧ (LeftOn w k x ∨ k.around = more ∧ f.loops.length < k.loops.length ∧ WrittenAtEnd o start ps k x))
    (Q := fun w => LeftOn w k x ∨ k ∉ owners w.frames ∧ WrittenAtEnd o start ps k x) ⟨.refl, .inl h⟩ hc
    ?outward ?group ?goesOn ?ends
  case outward =>
    intro w f p q key parents l outer w₁ S w₂ w₃ hended ⟨hcome, hleft⟩ hask hout
    refine ⟨hcome.tail (.ends hask.name hask.level hask.atEnd.frames hask.atEnd.loops hout.turn hout.dropped
      hout.cascades), ?_⟩
    rcases hended.left_asking hcome hleft hask with ⟨haround, hlength, -, hwritten⟩ | ⟨i, hi, hwaits⟩
    · exact .inr ⟨haround, hlength, hwritten⟩
    · exact .inl (leftOn_dropped hi hwaits hout.turned hout.dropped)
  case group =>
    intro w f p key parents hended ⟨hcome, hleft⟩ hname
    rcases hleft with hleft | ⟨haround, hlength, hwritten⟩
    · exact .inl hleft
    · rw [hended.frames]
      exact .inr ⟨not_mem_owners haround hlength, hwritten⟩
  case goesOn =>
    intro w f p q key parents l outer w₁ S w₂ hended ⟨hcome, hleft⟩ hask ht hturned hcont
    have hcount : S.loop.count = l.count + 1 := hcont.count
    rcases hended.left_asking hcome hleft hask with ⟨haround, -, hloops, hwritten⟩ | ⟨i, hi, hwaits⟩
    · refine .inr ⟨?_, hwritten⟩
      rcases hloops with hloops | hlength
      · -- it is in another run
        intro hk
        subst haround
        have hsuffix := suffix_of_mem_owners hk
        rw [hloops] at hsuffix
        obtain ⟨hl, -⟩ := List.cons.inj (hsuffix.eq_of_length rfl)
        rw [← hl] at hcount
        omega
      · exact not_mem_owners haround hlength
    · have hstarted := hask.atEnd.started
      refine .inl ⟨i + 1, ?_, hwaits.of_sink hturned.sink⟩
      dsimp only
      rw [owners_of_le rfl (by omega)]
      exact hi
  case ends =>
    intro w f p q key parents l outer w₁ S w₂ w₃ hended ⟨hcome, hleft⟩ hask ht hturned hends hd hcas
    rcases hended.left_asking hcome hleft hask with ⟨haround, hlength, -, hwritten⟩ | ⟨i, hi, hwaits⟩
    · rw [dropLoop_ok hturned hd]
      exact .inr ⟨not_mem_owners haround hlength, hwritten⟩
    · exact .inl (leftOn_dropped hi hwaits hturned hd)

end

/-! ## Rounds -/

/-- Leaving a document completes its level and closes it. -/
theorem LeftOn.leave (h : LeftOn w k x) (hwf : w.space.tree.WellFormed) (hf : w.frames = f :: more)
    (hloops : f.loops = []) (hl : Walk.leave o w = .ok u w') :
    LeftOn w' k x ∨ k = ⟨more, []⟩ ∧ k ∉ owners w'.frames
      ∧ ∃ after, Walk.completeLevel o w = .ok () after ∧ WritesAgain o x w after := by
  obtain ⟨i, hi, hwaits⟩ := h
  obtain ⟨w₁, h₁, -, rfl⟩ := leave_ok hwf hf hl
  rw [hf, owners_of_nil hloops] at hi
  cases i with
  | zero =>
    obtain rfl := Option.some.inj hi
    exact .inr ⟨rfl, fun hk => absurd (length_around_lt hk) (Nat.lt_irrefl _), w₁, h₁, hwaits.writesAgain h₁⟩
  | succ i => exact .inl ⟨i, hi, (hwaits.completeLevel hwf h₁).pop rfl⟩

theorem owners_resume (h : resume r n w = .ok u w') : owners w'.frames = owners w.frames := by
  cases hf : w.frames with
  | nil =>
    have hw := Action.modify_eq_ok.mp h
    simp only [hf] at hw
    rw [hw, hf]
  | cons f more =>
    obtain ⟨-, g, hg, hloops, -⟩ := frames_of_resume hf h
    rw [hg]
    exact owners_congr (congrArg levelLoops hloops)

/-- The walk goes on behind a visit: it goes into a document, or it does not. -/
theorem LeftOn.advance (h : LeftOn w k x) (hat : Visiting w f more root rs p r n)
    (hrs : ∀ r ∈ rs, IsRoot w.space.tree r) (hdocs : ∀ d ∈ documents w, IsRoot w.space.tree d)
    (hsees : f.seesSecondary = true → rs = [] ∧ root ∉ documents w) (ha : Walk.advance o f r n w = .ok progress w') :
    w'.sink = none ∨ LeftOn w' k x := by
  obtain ⟨v, w₁, h₁, ha⟩ := Action.bind_eq_ok.mp ha
  obtain ⟨_, w₂, h₂, ha⟩ := Action.bind_eq_ok.mp ha
  obtain ⟨-, hsink⟩ := kept_of_resume h₂
  have hbehind : w₂.sink = none ∨ LeftOn w₂ k x := by
    rw [hsink]
    exact (h.visit hat hrs hdocs hsees (Action.locating_eq_ok.mp h₁)).imp_right fun hleft =>
      hleft.of_owners (owners_resume h₂) fun i hi => hi.of_sink hsink
  cases v with
  | done =>
    obtain ⟨-, rfl⟩ := Action.pure_eq_ok.mp ha
    exact hbehind
  | yield k =>
    obtain ⟨-, rfl⟩ := Action.pure_eq_ok.mp ha
    exact hbehind
  | enter e =>
    obtain ⟨_, w₃, h₃, ha⟩ := Action.bind_eq_ok.mp ha
    obtain ⟨-, rfl⟩ := Action.pure_eq_ok.mp ha
    obtain ⟨d, m, t, -, -, rfl⟩ := enter_ok h₃
    rcases hbehind with hnone | hleft
    · exact .inl (by rw [hnone]; rfl)
    · exact .inr (hleft.entered rfl rfl rfl)

/-- A round that leaves the sink open: the field waits on, or its level is completed. -/
theorem Coherent.left_round (hc : Coherent even w roots) (h : LeftOn w k x) (hr : Walk.round o w = .ok progress w')
    (hopen : w'.sink ≠ none) :
    LeftOn w' k x ∨ k ∉ owners w'.frames
      ∧ ∃ before after, Completes o w k before after ∧ WritesAgain o x before after := by
  obtain ⟨w₁, h₁, hround⟩ := round_ok hr
  obtain rfl := h.rotate_eq hc h₁
  rcases hround with ⟨-, hr⟩ | ⟨f, more, hf, hr⟩
  · exfalso
    rcases finish_ok hr with ⟨hnone, -, rfl⟩ | ⟨s, -, -, rfl⟩
    · exact hopen hnone
    · rw [keep_rest] at hopen
      exact hopen rfl
  have hstack := hc.stack
  rw [hf] at hstack
  obtain ⟨root, rs, rfl⟩ := hstack.roots_cons
  rcases hr with ⟨ht, -, hr⟩ | ⟨r, g, ht, hr⟩
  · rcases h.leave hc.wellFormed hf (hstack.head.2.1.ended ht) hr with hleft | ⟨rfl, hgone, after, h₂, hwrites⟩
    · exact .inl hleft
    · exact .inr ⟨hgone, w₁, after, .document h₁ hf ht h₂, hwrites⟩
  · obtain ⟨-, hloops, -⟩ := hc.visiting hf ht
    have htaken : LeftOn { w₁ with frames := g :: more } k x := h.of_owners
      (by rw [hf]; exact owners_congr (congrArg levelLoops hloops)) fun i hi => hi.of_sink rfl
    rcases hr with ⟨n, hn, hr⟩ | ⟨hn, -, hr⟩
    · obtain ⟨p, hat, hrs, hmain⟩ := hc.aboutToVisit hf ht hn
      exact .inl ((htaken.advance hat hrs hc.docs hmain hr).resolve_left hopen)
    · obtain ⟨p, hended⟩ := hc.runEnded hf ht
      rcases hended.left htaken hr with hleft | ⟨hgone, before, after, hends, hwrites⟩
      · exact .inl hleft
      · exact .inr ⟨hgone, before, after, .run ⟨w₁, f, more, h₁, hf, ht, rfl⟩ hn hends, hwrites⟩

/-! ## Lazy fields -/

/-- In the round behind `w`, a lazy field of the frame `g` without an offset is put into the open sink.  It is left to
    wait, as `x`, on the innermost level, which belongs to `k`. -/
inductive LeavesToWait (o : Options) (w : Walk) (g : Frame) : Owner → Waiting → Walk → Prop
  | field {w₀ w' : Walk} {r : Run} {n : NodeId} {sink : Sink} {k : Owner} {progress : Progress}
      (taken : TakesUp o w g r w₀) (next : r.next = some n) (name : w₀.space.tree.name n = "item")
      (eval : w₀.space.tree.attr? n "eval" = some "lazy") (offset : w₀.space.tree.attr? n "offset" = none)
      (sink_eq : w₀.sink = some sink) (innermost : (owners w₀.frames).head? = some k)
      (round : Walk.round o w = .ok progress w') : LeavesToWait o w g k ⟨n, some sink.stream.position⟩ w'

/-- A round that leaves the sink open, and after which there is still the level of `k`. -/
def StaysOpen (o : Options) (k : Owner) (v v' : Walk) : Prop :=
  ∃ progress, Walk.round o v = .ok progress v' ∧ v'.sink ≠ none ∧ k ∈ owners v'.frames

theorem attr?_putValue {value name : String} (hwf : t.WellFormed) (hp : t.parent? n = some p)
    (hname : t.name n = "item") : (putValue t n value).attr? n name = t.attr? n name := by
  have hr : Tree.Refreshed t (putValue t n value) := refreshed_putValue hwf hp (by rw [hname]; decide)
  unfold Tree.attr?
  rw [hr.attrs n (hwf.live_of_parent hp).1]

theorem LeavesToWait.reached (h : LeavesToWait o w g k x w') (hw : Reached o s w) : Reached o s w' := by
  cases h with
  | field _ _ _ _ _ _ _ hround => exact .round hw hround

theorem LeavesToWait.leftOn (hc : Coherent even w roots) (h : LeavesToWait o w g k x w') : LeftOn w' k x := by
  cases h with
  | @field w₀ w' r n sink k progress taken next name eval offset sink_eq innermost hround =>
    obtain ⟨⟨j, hj, -, hsink⟩, more, g', hf, hg', hloops⟩ := taken.round_item next name sink_eq hround
    -- the records have put a value into the field, and its attributes are the same
    generalize w₀.recordValue g (w₀.space.tree.keyPath r.key n) n = value at hj
    have hattr : ∀ a, (putValue w₀.space.tree n value).attr? n a = w₀.space.tree.attr? n a := by
      intro a
      obtain ⟨w₁, f, more, hrot, hf₁, ht, rfl⟩ := taken
      obtain ⟨hc₁, -, -⟩ := hc.rotate hrot
      have hstack := hc₁.stack
      rw [hf₁] at hstack
      obtain ⟨root, rs, rfl⟩ := hstack.roots_cons
      obtain ⟨p, hat, -, -⟩ := hc₁.aboutToVisit hf₁ ht next
      exact attr?_putValue hat.wellFormed hat.parent? name
    have heval := (hattr "eval").trans eval
    have hoffset := (hattr "offset").trans offset
    obtain ⟨level, levels, hlevels⟩ := Job.queued_setData
      (j := ⟨{ w₀.space with tree := putValue w₀.space.tree n value }, sink⟩) heval hoffset hj
    refine ⟨0, ?_, j.sink, _, hsink, by rw [hlevels]; rfl, List.mem_cons_self⟩
    rw [hg', owners_congr (congrArg levelLoops hloops), ← hf, ← List.head?_eq_getElem?]
    exact innermost

/-- As long as its level is there and the sink stays open, the field waits. -/
theorem Reached.left (h : Reached o s w) (hleft : LeftOn w k x) (hstays : ReflTransGen (StaysOpen o k) w v) :
    Reached o s v ∧ LeftOn v k x := by
  induction hstays with
  | refl => exact ⟨h, hleft⟩
  | tail _ hstay ih =>
    obtain ⟨hreached, hleft⟩ := ih
    obtain ⟨progress, hr, hopen, hk⟩ := hstay
    obtain ⟨roots, hc⟩ := hreached.coherent
    exact ⟨.round hreached hr, (hc.left_round hleft hr hopen).resolve_right fun hgone => hgone.1 hk⟩

/-- A lazy field waits on the innermost level: that of the innermost loop, if the loop is in its second run or in a
    later one, and otherwise one further out.  It waits there as long as the level is there and the sink stays open.  In
    the round after which the level is gone, a run of the loop that the level belongs to has come to its end, or the
    document has, and the field is written again with the value that it has then. -/
theorem lazy_field_waits_for_end_of_run (h : Reached o s w) (hleft : LeavesToWait o w g k x w')
    (hstays : ReflTransGen (StaysOpen o k) w' v) (hr : Walk.round o v = .ok progress v') (hopen : v'.sink ≠ none) :
    (∀ l outer, g.loops = l :: outer → (k.loops = l :: outer ↔ 2 ≤ l.count)) ∧ LeftOn v k x
      ∧ (k ∉ owners v'.frames → ∃ before after, Completes o v k before after ∧ WritesAgain o x before after) := by
  obtain ⟨roots, hc⟩ := h.coherent
  obtain ⟨hreached, hwaits⟩ := (hleft.reached h).left (hleft.leftOn hc) hstays
  obtain ⟨roots', hc'⟩ := hreached.coherent
  refine ⟨fun l outer hloops => ?_, hwaits, fun hgone => ?_⟩
  · cases hleft with
    | field taken _ _ _ _ _ innermost _ =>
      obtain ⟨w₁, f, more, -, -, -, rfl⟩ := taken
      exact loops_eq_iff_of_head? hloops innermost
  · rcases hc'.left_round hwaits hr hopen with hleft | ⟨-, hwritten⟩
    · obtain ⟨i, hi, -⟩ := hleft
      exact absurd (List.mem_of_getElem? hi) hgone
    · exact hwritten

/-- A field in a loop with two runs: in the second run it is left to wait on the level of the loop, and it is written
    again in the round in which that run ends. -/
theorem lazy_field_waits_for_end_of_run_in_second :
    let field : Element := .mk "item" [("eval", "lazy"), ("bytes", "1")] "" .none []
    let layout : Element := .mk "format" [] "" .none [.mk "repeat" [("max", "2")] "" .none [field]]
    let s : Setup := ⟨⟨layout, none, none⟩, [], some (.inMemory ""), .memory, .zero, .stored [], .empty⟩
    ∃ o w g k x w' progress v', Reached o s w ∧ LeavesToWait o w g k x w' ∧ Walk.round o w' = .ok progress v'
      ∧ v'.sink ≠ none ∧ g.loops.map Loop.count = [2] ∧ k.loops = g.loops
      ∧ ∃ before after, Completes o w' k before after ∧ WritesAgain o x before after := by
  intro field layout s
  let o : Options := .standard ⟨2000, 1, 1, 0, 0, 0, 0⟩
  have hrun : Action.succeeds (start o ⟨0, s.main.path⟩ (begin s)) (fun _ w => leadsTo o (fun w =>
      takesUp o (fun g r w₁ => r.next.any fun n => w₁.sink.any fun _ => (owners w₁.frames).head?.any fun k =>
        w₁.space.tree.name n == "item" && w₁.space.tree.attr? n "eval" == some "lazy"
          && w₁.space.tree.attr? n "offset" == none && g.loops.map Loop.count == [2]
          && Action.succeeds (Walk.round o w) fun _ w' => Action.succeeds (Walk.round o w') fun _ v' =>
            v'.sink.isSome && decide (k ∉ owners v'.frames)) w) 3 w) = true := by
    decide +kernel
  obtain ⟨w, hw, hrun⟩ := exists_reached hrun
  obtain ⟨g, r, w₁, htaken, hrun⟩ := exists_takesUp hrun
  obtain ⟨n, hn, hrun⟩ := (Option.any_eq_true _ _).mp hrun
  obtain ⟨sink, hsink, hrun⟩ := (Option.any_eq_true _ _).mp hrun
  obtain ⟨k, hk, hrun⟩ := (Option.any_eq_true _ _).mp hrun
  simp only [Bool.and_eq_true, beq_iff_eq] at hrun
  obtain ⟨⟨⟨⟨hname, heval⟩, hoffset⟩, hcounts⟩, hrun⟩ := hrun
  obtain ⟨_, w', hround, hrun⟩ := Action.succeeds_iff.mp hrun
  obtain ⟨progress, v', hnext, hrun⟩ := Action.succeeds_iff.mp hrun
  obtain ⟨hsome, hgone⟩ := Bool.and_eq_true_iff.mp hrun
  have hopen : v'.sink ≠ none := Option.isSome_iff_ne_none.mp hsome
  have hleft : LeavesToWait o w g k ⟨n, some sink.stream.position⟩ w' :=
    .field htaken hn hname heval hoffset hsink hk hround
  obtain ⟨hloops, -, hwritten⟩ := lazy_field_waits_for_end_of_run hw hleft .refl hnext hopen
  have hown : k.loops = g.loops := by
    cases hg : g.loops with
    | nil =>
      rw [hg] at hcounts
      cases hcounts
    | cons l outer =>
      rw [hg] at hcounts
      exact (hloops l outer hg).mpr (List.cons.inj hcounts).1.ge
  exact ⟨o, w, g, k, _, w', progress, v', hw, hleft, hnext, hopen, hcounts, hown, hwritten (of_decide_eq_true hgone)⟩

/-- The length of a text, in front of the text, for each of two records: what is put there for the first one waits until
    the document ends, and becomes the length of the second text. -/
theorem field_of_first_run_gets_later_value :
    let length : Element := .mk "default-value" [("type", "xpath")] "sum(../item[@name=\"s\"]/@result-bytes)" .none []
    let field : Element := .mk "item" [("bytes", "1"), ("encoding", "decimal"), ("eval", "lazy")] "" .none [length]
    let text : Element := .mk "item" [("name", "s")] "" .none []
    let loop : Element := .mk "repeat" [("name", "r"), ("fetch", "true")] "" .none [field, text]
    let table : Table := ((Table.ofHeader ["r/s"]).addRow ["a"] 2).addRow ["abc"] 3
    let s : Setup := ⟨⟨.mk "format" [] "" .none [loop], none, some table⟩, [], some (.inMemory ""), .memory, .zero,
      .stored [], .empty⟩
    let result := pullAll (.standard ⟨2000, 1, 1, 0, 0, 0, 0⟩) 100 100 (begin s)
    result.1.toOption.isSome = true ∧ result.2.initialBytes = [3, 97, 3, 97, 98, 99] := by
  decide +kernel

end Walk

end Stencil
