/-
  Outputs are handed out.

  In the middle of a walk the events so far are those of the outputs that have been handed out, and behind
  these, if a sink is open, the events since it was opened, with the levels that are still to be closed
  (`Tracked`).  Each part of a round keeps that up; it is said here what becomes of the levels.  At the end
  there is no level left, so that each output that has been opened has been handed out, with everything
  settled (`Handed`).
-/
import Stencil.Proofs.Walk.Sinks

set_option autoImplicit false

namespace Stencil

open Logged (bind_ok get_bind_ok modify_ok modify_bind_ok lift_bind_ok lift_ok emit_ok emit_bind_ok pure_ok
  set_bind_ok)

/-- The outputs that have been handed out, in turn, with the events in between.  Behind what has been
    settled, the levels are closed that the sink already had when it was opened, or some of them. -/
inductive Handed (even : Prop) : List Event → List Sink → Prop
  | nil : Handed even [] []
  | snoc {es body : List Event} {ss : List Sink} {a s : Sink} {ls : List (List Waiting)}
      (before : Handed even es ss) (fresh : even → a.levels = []) (settled : Settled body)
      (same : SameSink a s) (flushed : s.flush = s) (levels : a.levels = ls ++ s.levels) :
      Handed even (es ++ (.opened a :: body ++ closing ls ++ [.yielded s])) (ss ++ [s])

/-- The events of a walk so far: the outputs `ss` have been handed out, and on the open sink the levels `ls`
    are still to be closed. -/
inductive Tracked (even : Prop) (ss : List Sink) (ls : List (List Waiting)) :
    List Event → Walk → Prop
  | closed {es : List Event} {w : Walk} (handed : Handed even es ss) (depth : ls.length = w.depth)
      (closed : w.sink = none) : Tracked even ss ls es w
  | opened {es body : List Event} {w : Walk} {a s : Sink} (handed : Handed even es ss)
      (depth : ls.length = w.depth) (sink : w.sink = some s) (fresh : even → a.levels = [])
      (unsettled : Unsettled ls body) (same : SameSink a s) (levels : s.levels = ls ++ a.levels) :
      Tracked even ss ls (es ++ .opened a :: body) w

namespace Tracked

variable {even : Prop} {ss : List Sink} {l : List Waiting} {ls ls' : List (List Waiting)}
  {es es' : List Event} {w w' : Walk} {s s' : Sink} {o : Options} {u : Unit}

theorem depth (h : Tracked even ss ls es w) : ls.length = w.depth := by
  cases h <;> assumption

theorem handed (h : Tracked even ss ls es w) (hs : w.sink = none) : Handed even es ss := by
  cases h with
  | closed h _ _ => exact h
  | opened _ _ hs' =>
    rw [hs] at hs'
    cases hs'

theorem of_eq (h : Tracked even ss ls es w) (hd : w'.depth = w.depth) (hs : w'.sink = w.sink) :
    Tracked even ss ls es w' := by
  cases h with
  | closed h hd' hs' => exact .closed h (hd'.trans hd.symm) (hs.trans hs')
  | opened h hd' hs' hf hu hsame hl =>
    exact .opened h (hd'.trans hd.symm) (hs.trans hs') hf hu hsame hl

/-- No sink is open, and nothing is logged. -/
theorem idle (h : Tracked even ss ls es w) (hs : w.sink = none) (hs' : w'.sink = none)
    (hd : ls'.length = w'.depth) : Tracked even ss ls' (es ++ []) w' := by
  rw [List.append_nil]
  exact .closed (h.handed hs) hd hs'

/-- The open sink goes on. -/
theorem step (h : Tracked even ss ls es w) (hs : w.sink = some s) (hs' : w'.sink = some s')
    (hsame : SameSink s s') (hd : ls'.length = w'.depth)
    (hl : ∀ below, s.levels = ls ++ below →
      s'.levels = ls' ++ below ∧ ∀ body, Unsettled ls body → Unsettled ls' (body ++ es')) :
    Tracked even ss ls' (es ++ es') w' := by
  cases h with
  | closed _ _ hnone =>
    rw [hs] at hnone
    cases hnone
  | opened h _ hsome hf hun hsame' hlevels =>
    rw [hs] at hsome
    cases hsome
    obtain ⟨hlevels', hu⟩ := hl _ hlevels
    rw [List.append_assoc, List.cons_append]
    exact .opened h hd hs' hf (hu _ hun) (hsame'.trans hsame) hlevels'

end Tracked

/-! ## Levels -/

namespace Logged

variable {w w' : Walk} {o : Options} {u : Unit} {es : List Event} {x : Files → Logged Job Unit}

theorem onSink_ok (h : (onSink x).Ok w u w' es) :
    (w.sink = none ∧ w' = w ∧ es = [])
      ∨ ∃ s j, w.sink = some s ∧ (x w.files).Ok ⟨w.space, s⟩ () j es
        ∧ w' = { w with sink := some j.sink, space := j.space } := by
  obtain ⟨hrun, rfl⟩ := h
  rcases Walk.onSink_ok (x := fun files => (x files).run) hrun with ⟨hs, hw⟩ | ⟨s, j, hs, hj, hw⟩
  · refine .inl ⟨hs, hw, ?_⟩
    unfold onSink
    simp only [hs]
  · refine .inr ⟨s, j, hs, ⟨hj, ?_⟩, hw⟩
    unfold onSink
    simp only [hs]

theorem locating_ok {σ α : Type} {site : σ → String} {x : Logged σ α} {s s' : σ} {a : α} :
    (locating site x).Ok s a s' es ↔ x.Ok s a s' es := by
  unfold Ok locating
  rw [Action.locating_eq_ok]

theorem run_levelDone {c : Prop} [Decidable c]
    (h : (if c then pushLevel else completeLevel o).Ok w u w' es) :
    (if c then Walk.pushLevel else Walk.completeLevel o) w = .ok u w' := by
  by_cases hc : c
  · rw [if_pos hc] at h ⊢
    exact h.1
  · rw [if_neg hc] at h ⊢
    rw [← run_completeLevel]
    exact h.1

end Logged

namespace Tracked

variable {even : Prop} {ss : List Sink} {l : List Waiting} {ls : List (List Waiting)}
  {es es' : List Event} {w w' : Walk} {o : Options} {u : Unit}

theorem push (h : Tracked even ss ls es w) (hp : Logged.pushLevel.Ok w u w' es') :
    Tracked even ss ([] :: ls) (es ++ es') w' := by
  obtain ⟨_, w₁, es₁, _, h₁, h₂, rfl⟩ := bind_ok.mp hp
  obtain ⟨rfl, rfl⟩ := modify_ok.mp h₂
  rw [List.append_nil]
  rcases Logged.onSink_ok h₁ with ⟨hs, rfl, rfl⟩ | ⟨s, j, hs, hj, rfl⟩
  · exact h.idle hs hs (congrArg (· + 1) h.depth)
  · obtain ⟨_, j₁, hpush, hemit⟩ := lift_bind_ok.mp hj
    obtain ⟨rfl, rfl⟩ := emit_ok.mp hemit
    obtain rfl := Action.modify_eq_ok.mp hpush
    exact h.step hs rfl (.levels s _) (congrArg (· + 1) h.depth)
      fun _ hl => ⟨congrArg ([] :: ·) hl, fun _ hu => hu.push⟩

theorem complete (hwf : w.space.tree.WellFormed) (h : Tracked even ss (l :: ls) es w)
    (hc : (Logged.completeLevel o).Ok w u w' es') : Tracked even ss ([] :: ls) (es ++ es') w' := by
  rcases Logged.onSink_ok hc with ⟨hs, rfl, rfl⟩ | ⟨s, j, hs, hj, rfl⟩
  · exact h.idle hs hs h.depth
  · have hrun := hj.1
    rw [Logged.run_writeChunk] at hrun
    have hd := Job.completed_writeChunk hwf hrun
    have hlevels := hd.levels
    rw [Logged.writeChunk_ok hj]
    refine h.step hs rfl hd.same h.depth fun _ hl => ?_
    simp only [hl] at hlevels ⊢
    exact ⟨hlevels, fun _ hu => hu.complete⟩

theorem pop (h : Tracked even ss ([] :: ls) es w) (hp : Logged.popLevel.Ok w u w' es') :
    Tracked even ss ls (es ++ es') w' := by
  obtain ⟨_, w₁, es₁, _, h₁, h₂, rfl⟩ := bind_ok.mp hp
  obtain ⟨rfl, rfl⟩ := modify_ok.mp h₂
  rw [List.append_nil]
  have hdepth : ∀ {w₁ : Walk}, w₁.depth = w.depth → ls.length = w₁.depth - 1 := by
    intro w₁ he
    rw [he, ← h.depth]
    rfl
  rcases Logged.onSink_ok h₁ with ⟨hs, rfl, rfl⟩ | ⟨s, j, hs, hj, rfl⟩
  · exact h.idle hs hs (hdepth rfl)
  · obtain ⟨_, j₁, hpop, hemit⟩ := lift_bind_ok.mp (get_bind_ok.mp hj)
    obtain ⟨rfl, rfl⟩ := emit_ok.mp hemit
    obtain rfl := Action.modify_eq_ok.mp hpop
    refine h.step hs rfl (.levels s _) (hdepth rfl) fun _ hl => ?_
    dsimp only
    rw [hl]
    exact ⟨congrArg List.tail hl, fun _ hu => hu.pop⟩

/-- A field is written, and it may be left to wait. -/
theorem item {node : NodeId} (hwf : w.space.tree.WellFormed) (h : Tracked even ss (l :: ls) es w)
    (hi : (Logged.onSink fun files => Logged.setData o files node).Ok w u w' es') :
    ∃ ls', Tracked even ss ls' (es ++ es') w' := by
  rcases Logged.onSink_ok hi with ⟨hs, rfl, rfl⟩ | ⟨s, j, hs, hj, rfl⟩
  · exact ⟨_, h.idle hs hs h.depth⟩
  · have hrun := hj.1
    rw [Logged.run_setData] at hrun
    have hsame := (Job.put_setData hwf hrun).same
    rcases Logged.setData_ok hwf hj with ⟨rfl, hl⟩ | ⟨waiting, l', ls', hl, hl', rfl⟩
    · refine ⟨_, h.step hs rfl hsame h.depth fun _ hs => ⟨hl.trans hs, fun _ hu => ?_⟩⟩
      rw [List.append_nil]
      exact hu
    · refine ⟨(waiting :: l) :: ls, h.step hs rfl hsame h.depth fun below hs => ?_⟩
      obtain ⟨rfl, rfl⟩ := List.cons.inj (hl.symm.trans hs)
      exact ⟨hl', fun _ hu => hu.queue⟩

end Tracked

/-! ## Opening and handing out -/

theorem closing_append (ls ls' : List (List Waiting)) : closing (ls ++ ls') = closing ls ++ closing ls' := by
  unfold closing
  exact List.flatMap_append

theorem unsettled_replicate (n : Nat) :
    Unsettled (List.replicate n []) (List.replicate n Event.pushed) := by
  induction n with
  | zero => exact .nil .nil
  | succ n ih =>
    rw [List.replicate_succ, List.replicate_succ']
    exact ih.push

theorem SameSink.repeat_push (n : Nat) (s : Sink) : SameSink s (Nat.repeat Sink.push n s) := by
  induction n with
  | zero => exact .refl s
  | succ n ih => exact ih.trans (.levels _ _)

section
variable {even : Prop} {ss : List Sink} {ls : List (List Waiting)} {es es' : List Event}
  {w w' : Walk} {s s' : Sink} {o : Options} {u : Unit} {f : Frame} {node : NodeId}

theorem Handed.openSink (h : Handed even es ss) (ho : (Logged.openSink o f node).Ok w u w' es') :
    ∃ ls, Tracked even ss ls (es ++ es') w' := by
  obtain ⟨name, w₁, -, h₁⟩ := lift_bind_ok.mp (get_bind_ok.mp ho)
  obtain ⟨s, w₂, hnew, h₂⟩ := lift_bind_ok.mp h₁
  obtain ⟨es₃, h₃, rfl⟩ := emit_bind_ok.mp (get_bind_ok.mp h₂)
  obtain ⟨rfl, rfl⟩ := modify_ok.mp h₃
  have hopened := Walk.opened_newSink (Action.locating_eq_ok.mp hnew)
  rw [List.append_nil]
  refine ⟨List.replicate w₂.depth [], .opened h (List.length_replicate ..) rfl (fun _ => hopened.levels)
    (unsettled_replicate _) (.repeat_push _ _) ?_⟩
  rw [Walk.levels_repeat_push]

theorem Tracked.takeSink (hwf : w.space.tree.WellFormed) (h : Tracked even ss ls es w)
    (hs : w.sink = some s) (ht : (Logged.takeSink o s).Ok w s' w' es') :
    Handed even (es ++ (es' ++ [.yielded s'])) (ss ++ [s']) ∧ w'.sink = none
      ∧ w'.depth = w.depth := by
  obtain ⟨hrun, hlog⟩ := ht
  have htaken := Walk.taken_takeSink hwf hrun
  have hclose : es' = closing s.levels := by
    change Walk.takeSink o s w = .ok s' w' at hrun
    unfold Walk.takeSink at hrun
    cases hj : Job.closeAll o w.files ⟨w.space, s⟩ with
    | error e j => simp only [hj] at hrun; cases hrun
    | ok v j =>
      rw [← Logged.run_closeAll] at hj
      exact Logged.closeAll_ok hwf ⟨hj, hlog⟩
  refine ⟨?_, by rw [htaken.rest], by rw [htaken.rest]⟩
  cases h with
  | closed _ _ hnone =>
    rw [hs] at hnone
    cases hnone
  | @opened es body _ a s₁ h _ hsome hf hun hsame hl =>
    rw [hs] at hsome
    cases hsome
    have hevents : es ++ .opened a :: body ++ (es' ++ [.yielded s'])
        = es ++ (.opened a :: (body ++ closing ls) ++ closing a.levels ++ [.yielded s']) := by
      rw [hclose, hl, closing_append]
      simp only [List.append_assoc, List.cons_append]
    rw [hevents]
    refine .snoc h hf hun.close (hsame.trans htaken.same) htaken.flushed ?_
    rw [htaken.levels, List.append_nil]

/-- At the end of the walk no level is left. -/
theorem Tracked.finish (h : Tracked even ss [] es w) (hs : w.sink = some s) :
    Handed even (es ++ [.yielded s.flush]) (ss ++ [s.flush]) := by
  cases h with
  | closed _ _ hnone =>
    rw [hs] at hnone
    cases hnone
  | @opened es body _ a s₁ h _ hsome hf hun hsame hl =>
    rw [hs] at hsome
    cases hsome
    have hevents : es ++ .opened a :: body ++ [.yielded s.flush]
        = es ++ (.opened a :: body ++ closing [] ++ [.yielded s.flush]) := by
      rw [closing, List.flatMap_nil, List.append_nil, List.append_assoc]
    rw [hevents]
    refine .snoc h hf hun.settled (hsame.trans (.flush s)) (Walk.flush_flush s) ?_
    rw [levels_flush, hl]
    rfl

end

/-! ## Steps that have nothing to do with outputs -/

namespace Walk

/-- The levels and the open sink are left alone. -/
structure Apart (w w' : Walk) : Prop where
  depth : w'.depth = w.depth
  sink : w'.sink = w.sink

variable {w w₁ w' : Walk} {o : Options} {f : Frame} {u : Unit} {key : String} {node : NodeId}

theorem Apart.trans (h : Apart w w₁) (h' : Apart w₁ w') : Apart w w' :=
  ⟨h'.depth.trans h.depth, h'.sink.trans h.sink⟩

theorem apart_modifyTree {g : Tree → Tree} (h : modifyTree g w = .ok u w') : Apart w w' := by
  rw [modifyTree_eq_ok.mp h]
  exact ⟨rfl, rfl⟩

theorem apart_modifyFrame {g : Frame → Frame} (h : modifyFrame g w = .ok u w') : Apart w w' := by
  rw [modifyFrame_eq_ok.mp h]
  cases w.frames <;> exact ⟨rfl, rfl⟩

theorem apart_onDesk {α : Type} {x : Action Import.Desk α} {a : α} (h : onDesk x w = .ok a w') :
    Apart w w' := by
  obtain ⟨d, -, rfl⟩ := onDesk_ok h
  exact ⟨rfl, rfl⟩

theorem apart_resume {r : Run} (h : resume r node w = .ok u w') : Apart w w' := by
  rw [resume, Action.modify_eq_ok] at h
  subst h
  cases hf : w.frames with
  | nil => exact ⟨rfl, rfl⟩
  | cons f more =>
    dsimp only
    split <;> exact ⟨rfl, rfl⟩

theorem apart_afterTurn (s : Loop.Turn) : Apart w (w.afterTurn f s) := by
  unfold afterTurn
  cases s.feed with
  | documents c =>
    dsimp only
    cases f.seesSecondary <;> cases w.frames <;> exact ⟨rfl, rfl⟩
  | records table =>
    dsimp only
    rw [setTable_rest]
    cases w.frames <;> exact ⟨rfl, rfl⟩

theorem apart_turn {l l' : Loop} {more : Bool} (h : turn f l w = .ok (more, l') w') : Apart w w' := by
  obtain ⟨s, -, -, rfl⟩ := turn_ok h
  exact apart_afterTurn s

theorem apart_startLoop (h : startLoop f key node w = .ok u w') : Apart w w' := by
  rw [startLoop, Action.get_bind_eq_ok] at h
  obtain ⟨l, w₁, h₁, h⟩ := Action.bind_eq_ok.mp h
  obtain ⟨t, -, rfl⟩ := onTree_ok h₁
  obtain ⟨⟨more, l'⟩, w₂, h₂, h⟩ := Action.bind_eq_ok.mp h
  have hturn := apart_turn h₂
  have ha : Apart w w₂ := ⟨hturn.depth, hturn.sink⟩
  cases more with
  | true => exact ha.trans (apart_modifyFrame h)
  | false =>
    obtain ⟨-, rfl⟩ := Action.pure_eq_ok.mp h
    exact ha

theorem apart_visitImport {v : Visit} (h : visitImport o f node w = .ok v w') :
    Apart w w' ∧ ∀ s, v ≠ .yield s := by
  rw [visitImport, Action.get_bind_eq_ok] at h
  generalize w.space.tree.attr? node "type" = kind at h
  split at h
  · cases hi : (w.visible f).currentIndex with
    | none =>
      simp only [hi] at h
      exact (Action.failAt_eq_ok.mp h).elim
    | some i =>
      cases hc : (w.visible f).current? with
      | none =>
        simp only [hi, hc] at h
        exact (Action.failAt_eq_ok.mp h).elim
      | some c =>
        simp only [hi, hc] at h
        obtain ⟨_, w₁, h₁, h⟩ := Action.bind_eq_ok.mp h
        obtain ⟨rfl, rfl⟩ := Action.pure_eq_ok.mp h
        exact ⟨apart_onDesk h₁, fun _ hv => by cases hv⟩
  · obtain ⟨d, w₁, h₁, h⟩ := Action.bind_eq_ok.mp h
    obtain ⟨_, w₂, h₂, h⟩ := Action.bind_eq_ok.mp h
    obtain ⟨rfl, rfl⟩ := Action.pure_eq_ok.mp h
    exact ⟨(apart_onDesk h₁).trans (apart_onDesk h₂), fun _ hv => by cases hv⟩
  · obtain ⟨rfl, rfl⟩ := Action.pure_eq_ok.mp h
    exact ⟨⟨rfl, rfl⟩, fun _ hv => by cases hv⟩
  · exact (Action.failAt_eq_ok.mp h).elim

/-- What a visit hands out. -/
def Visit.given : Visit → List Sink
  | .yield s => [s]
  | .done | .enter _ => []

/-- What a round hands out. -/
def Progress.given : Progress → List Sink
  | .yield s => [s]
  | .goOn | .finished => []

end Walk

/-! ## Visits and loops -/

open Walk (Apart Coherent Leveled RunEnded Visit Progress repeating levelsOf)

namespace Tracked

variable {even : Prop} {ss : List Sink} {l : List Waiting} {ls : List (List Waiting)}
  {es es' : List Event} {w w' : Walk} {o : Options} {u : Unit} {f : Frame} {node : NodeId}
  {more : List Frame} {root p : NodeId} {key : String} {parents : List NodeId} {k : Nat}

theorem apart (h : Tracked even ss ls es w) (ha : Apart w w') : Tracked even ss ls (es ++ []) w' := by
  rw [List.append_nil]
  exact h.of_eq ha.depth ha.sink

theorem writer {v : Visit} (hwf : w.space.tree.WellFormed) (h : Tracked even ss ls es w)
    (hv : (Logged.visitWriter o f node).Ok w v w' es') :
    ∃ ls', Tracked even (ss ++ v.given) ls' (es ++ es') w' := by
  replace hv := get_bind_ok.mp hv
  cases hs : w.sink with
  | none =>
    simp only [hs] at hv
    obtain ⟨_, w₁, es₁, es₂, h₁, h₂, rfl⟩ := bind_ok.mp hv
    obtain ⟨rfl, rfl, rfl⟩ := pure_ok.mp h₂
    rw [List.append_nil, show Visit.given .done = [] from rfl, List.append_nil]
    exact (h.handed hs).openSink h₁
  | some s =>
    simp only [hs] at hv
    obtain ⟨s', w₁, es₁, es₂, h₁, h₂, rfl⟩ := bind_ok.mp hv
    obtain ⟨es₃, h₃, rfl⟩ := emit_bind_ok.mp (modify_bind_ok.mp h₂)
    obtain ⟨rfl, rfl, rfl⟩ := pure_ok.mp h₃
    obtain ⟨hh, hs', hd⟩ := h.takeSink hwf hs h₁
    exact ⟨ls, .closed hh (h.depth.trans hd.symm) hs'⟩

theorem visit {v : Visit} (hwf : w.space.tree.WellFormed) (hp : w.space.tree.parent? node = some p)
    (h : Tracked even ss (l :: ls) es w) (hv : (Logged.visit o f key node).Ok w v w' es') :
    ∃ ls', Tracked even (ss ++ v.given) ls' (es ++ es') w' := by
  obtain ⟨tag, w₁, htag, hvisit⟩ := lift_bind_ok.mp (get_bind_ok.mp hv)
  obtain ⟨htag, rfl⟩ := Action.ofExcept_eq_ok.mp htag
  have done : ∀ {w' : Walk}, Apart w₁ w' → ∃ ls', Tracked even (ss ++ []) ls' (es ++ []) w' := by
    intro w' ha
    rw [List.append_nil ss]
    exact ⟨_, h.apart ha⟩
  cases tag with
  | item =>
    obtain ⟨_, w₂, hfill, hsink⟩ := lift_bind_ok.mp hvisit
    obtain ⟨_, w₃, es₁, es₂, h₁, h₂, rfl⟩ := bind_ok.mp hsink
    obtain ⟨rfl, rfl, rfl⟩ := pure_ok.mp h₂
    obtain ⟨value, rfl⟩ := Walk.fillItem_ok hfill
    have hr : Tree.Refreshed w₁.space.tree (Walk.putValue w₁.space.tree node value) :=
      Walk.refreshed_putValue hwf hp (by rw [Walk.tagOf_ok htag]; decide)
    rw [List.append_nil, show Visit.given .done = [] from rfl, List.append_nil]
    have hput : Tracked even ss (l :: ls) es { w₁ with
        space := { w₁.space with tree := Walk.putValue w₁.space.tree node value } } := h.of_eq rfl rfl
    exact hput.item hr.wellFormed h₁
  | items =>
    obtain ⟨⟨t, scan⟩, w₂, hd, hrest⟩ := lift_bind_ok.mp hvisit
    obtain ⟨-, rfl⟩ := Action.ofExcept_eq_ok.mp hd
    obtain ⟨_, w₃, h₁, hrest'⟩ := lift_bind_ok.mp hrest
    obtain ⟨_, w₄, h₂, hend⟩ := lift_bind_ok.mp hrest'
    obtain ⟨rfl, rfl, rfl⟩ := pure_ok.mp hend
    exact done ((Walk.apart_modifyTree h₁).trans (Walk.apart_modifyFrame h₂))
  | loop =>
    obtain ⟨_, w₂, h₁, hend⟩ := lift_bind_ok.mp hvisit
    obtain ⟨rfl, rfl, rfl⟩ := pure_ok.mp hend
    exact done (Walk.apart_startLoop h₁)
  | document =>
    obtain ⟨himport, rfl⟩ := lift_ok.mp hvisit
    obtain ⟨ha, hv⟩ := Walk.apart_visitImport himport
    cases v with
    | yield s => exact (hv s rfl).elim
    | done => exact done ha
    | enter e => exact done ha
  | writer => exact h.writer hwf hvisit
  | nop =>
    obtain ⟨rfl, rfl, rfl⟩ := pure_ok.mp hvisit
    exact done ⟨rfl, rfl⟩

/-- What waits is written up, or a level is opened; so nothing waits on the innermost level. -/
theorem levelDone (hwf : w.space.tree.WellFormed) (hd : 1 ≤ w.depth) (h : Tracked even ss ls es w)
    {c : Prop} [Decidable c]
    (hl : (if c then Logged.pushLevel else Logged.completeLevel o).Ok w u w' es') :
    ∃ ls', Tracked even ss ([] :: ls') (es ++ es') w' := by
  cases ls with
  | nil =>
    have := h.depth
    rw [List.length_nil] at this
    omega
  | cons l ls =>
    split at hl
    · exact ⟨_, h.push hl⟩
    · exact ⟨_, h.complete hwf hl⟩

/-- A loop that has ended is dropped with its level. -/
theorem drop {outer : List Loop} (h : Tracked even ss ([] :: ls) es w)
    (hd : (Logged.dropLoop outer).Ok w u w' es') : Tracked even ss ls (es ++ es') w' := by
  obtain ⟨_, w₁, h₁, hpop⟩ := lift_bind_ok.mp hd
  have ha := Walk.apart_modifyFrame h₁
  exact (h.of_eq ha.depth ha.sink).pop hpop

/-- At the end of a run what waits is written up, the loops are asked, and those that have ended are
    dropped. -/
theorem closeLoops (hrun : RunEnded w f more root p key parents)
    (hk : Leveled False w (k + 1 + repeating f.loops)) (h : Tracked even ss ls es w)
    (hc : (Logged.closeLoops o parents).Ok w u w' es') :
    ∃ ls', Tracked even ss ls' (es ++ es') w' := by
  induction parents generalizing w f p key ls es es' with
  | nil => cases hrun.parents
  | cons parent parents ih =>
    obtain ⟨rfl, -⟩ := List.cons.inj hrun.parents
    have hwf := hrun.wellFormed
    replace hc := get_bind_ok.mp hc
    dsimp only at hc
    by_cases hname : w.space.tree.name parent = "repeat"
    · simp only [hname, BEq.rfl, if_true] at hc
      rw [Logged.ite_bind] at hc
      obtain ⟨_, w₁, es₁, es₂, h₁, hask, rfl⟩ := bind_ok.mp hc
      have hdepth : 1 ≤ w.depth := by
        rw [hk.depth]
        omega
      obtain ⟨ls₁, htop⟩ := h.levelDone hwf hdepth h₁
      obtain ⟨hup, hlev⟩ := Walk.writtenUp hwf (Logged.run_levelDone h₁)
      have hf₁ : w₁.frames = f :: more := by rw [hup.rest]; exact hrun.frames
      replace hask := get_bind_ok.mp hask
      simp only [hf₁] at hask
      cases hloops : f.loops with
      | nil =>
        simp only [hloops] at hask
        have hstray : Walk.strayLoop parent w₁ = .ok u w' := hask.1
        rw [Walk.strayLoop, Action.get_bind_eq_ok] at hstray
        exact (Action.fail_eq_ok.mp hstray).elim
      | cons l outer =>
        simp only [hloops] at hask
        obtain ⟨⟨next, l'⟩, w₂, hsaid, hrest⟩ := lift_bind_ok.mp hask
        have hapart := Walk.apart_turn hsaid
        obtain ⟨q, hat⟩ := hrun.atLoopEnd hname hloops hup
        obtain ⟨s, rfl, hturn, hstep⟩ := hat.turned hsaid
        have htop₂ := htop.of_eq hapart.depth hapart.sink
        rw [← List.append_assoc]
        cases next with
        | true =>
          obtain ⟨hframe, rfl⟩ := lift_ok.mp hrest
          exact ⟨_, htop₂.apart (Walk.apart_modifyFrame hframe)⟩
        | false =>
          obtain ⟨_, w₃, es₃, es₄, hdrop, hcas, rfl⟩ := bind_ok.mp hrest
          have h₃ := htop₂.drop hdrop
          have hk₃ := (hrun.leveled_turned hup hlev hat hturn hk).pop
          replace hcas := get_bind_ok.mp hcas
          rw [← List.append_assoc]
          by_cases hc₃ : Walk.cascades w₃.space.tree outer parent = true
          · rw [if_pos hc₃] at hcas
            refine ih (hrun.outward hup hat hturn hstep hdrop.1 hc₃) ?_ h₃ hcas
            rw [Walk.dropLoop_ok hturn hdrop.1]
            exact hk₃.of_eq rfl rfl
          · rw [if_neg hc₃] at hcas
            obtain ⟨-, rfl, rfl⟩ := pure_ok.mp hcas
            rw [List.append_nil]
            exact ⟨_, h₃⟩
    · have hn : ¬ (w.space.tree.name parent == "repeat") = true := fun he => hname (eq_of_beq he)
      rw [if_neg hn] at hc
      obtain ⟨-, rfl, rfl⟩ := pure_ok.mp hc
      rw [List.append_nil]
      exact ⟨ls, h⟩

theorem enter {e : Walk.Entry} (h : Tracked even ss ls es w)
    (he : (Logged.enter o e).Ok w u w' es') : Tracked even ss ([] :: ls) (es ++ es') w' := by
  obtain ⟨_, w₁, h₁, hrest⟩ := lift_bind_ok.mp (get_bind_ok.mp he)
  have ha := Walk.apart_onDesk h₁
  obtain ⟨_, w₂, es₁, es₂, h₂, h₃, rfl⟩ := bind_ok.mp (modify_bind_ok.mp hrest)
  obtain ⟨rfl, rfl⟩ := modify_ok.mp h₃
  rw [List.append_nil]
  refine (Tracked.push ?_ h₂).of_eq rfl rfl
  exact h.of_eq ha.depth ha.sink

theorem leave (hwf : w.space.tree.WellFormed) (h : Tracked even ss (l :: ls) es w)
    (hl : (Logged.leave o).Ok w u w' es') : Tracked even ss ls (es ++ es') w' := by
  obtain ⟨_, w₁, es₁, es₂, h₁, hrest, rfl⟩ := bind_ok.mp hl
  obtain ⟨_, w₂, es₃, es₄, h₂, hrest', rfl⟩ := bind_ok.mp hrest
  have hpop := (h.complete hwf h₁).pop h₂
  rw [List.append_assoc] at hpop
  suffices hapart : Apart w₂ w' ∧ es₄ = [] by
    obtain ⟨ha, rfl⟩ := hapart
    rw [List.append_nil]
    exact hpop.of_eq ha.depth ha.sink
  replace hrest' := get_bind_ok.mp hrest'
  cases hf : w₂.frames with
  | nil =>
    simp only [hf] at hrest'
    obtain ⟨-, rfl, rfl⟩ := pure_ok.mp hrest'
    exact ⟨⟨rfl, rfl⟩, rfl⟩
  | cons f more =>
    simp only [hf] at hrest'
    replace hrest' := set_bind_ok.mp hrest'
    cases ho : f.owned with
    | none =>
      simp only [ho] at hrest'
      obtain ⟨-, rfl, rfl⟩ := pure_ok.mp hrest'
      exact ⟨⟨rfl, rfl⟩, rfl⟩
    | some root =>
      simp only [ho] at hrest'
      obtain ⟨hrelease, rfl⟩ := lift_ok.mp hrest'
      have ha := Walk.apart_modifyTree hrelease
      exact ⟨⟨ha.depth, ha.sink⟩, rfl⟩

theorem rotate {roots : List NodeId} (hc : Coherent even w roots) (h : Tracked even ss ls es w)
    (hr : (Logged.rotate o).Ok w u w' es') : ∃ ls', Tracked even ss ls' (es ++ es') w' := by
  replace hr := get_bind_ok.mp hr
  cases hrot : w.rotation with
  | none =>
    simp only [hrot] at hr
    obtain ⟨-, rfl, rfl⟩ := pure_ok.mp hr
    rw [List.append_nil]
    exact ⟨ls, h⟩
  | some n =>
    have hs := (hc.rotation n hrot).1
    cases hf : w.frames with
    | nil =>
      simp only [hrot, hf] at hr
      obtain ⟨-, rfl, rfl⟩ := pure_ok.mp hr
      rw [List.append_nil]
      exact ⟨ls, h⟩
    | cons f more =>
      simp only [hrot, hf] at hr
      exact (h.handed hs).openSink (set_bind_ok.mp hr)

/-- The document that is walked last has a level. -/
theorem exists_level {roots : List NodeId} (hc : Coherent even w roots) (hf : w.frames = f :: more)
    (h : Tracked even ss ls es w) : ∃ l ls', ls = l :: ls' := by
  cases ls with
  | nil =>
    have hd := h.depth
    rw [hc.leveled.depth, hf, Walk.levelsOf_cons, List.length_nil] at hd
    omega
  | cons l ls => exact ⟨l, ls, rfl⟩

theorem advance {rs : List NodeId} {r : Run} {g : Frame} {n : NodeId} {progress : Progress}
    (hc : Coherent even w (root :: rs)) (hf : w.frames = f :: more)
    (htake : Walk.takeRun f = some (r, g)) (hn : r.next = some n) (h : Tracked even ss (l :: ls) es w)
    (ha : (Logged.advance o g r n).Ok { w with frames := g :: more } progress w' es') :
    (∃ ls', Tracked even (ss ++ progress.given) ls' (es ++ es') w') ∧ progress ≠ .finished := by
  obtain ⟨-, -, p, hrun, -⟩ := hc.visiting hf htake
  obtain ⟨v, w₁, es₁, es₂, h₁, hrest, rfl⟩ := bind_ok.mp ha
  obtain ⟨_, w₂, h₂, hrest'⟩ := lift_bind_ok.mp hrest
  have hgo : Tracked even ss (l :: ls) es { w with frames := g :: more } := h.of_eq rfl rfl
  obtain ⟨ls₁, ht⟩ := Tracked.visit (w := { w with frames := g :: more }) hc.wellFormed (hrun.next n hn).1
    hgo (Logged.locating_ok.mp h₁)
  have happart := Walk.apart_resume h₂
  have ht₂ := ht.of_eq happart.depth happart.sink
  rw [← List.append_assoc]
  cases v with
  | done =>
    obtain ⟨rfl, rfl, rfl⟩ := pure_ok.mp hrest'
    rw [List.append_nil (es ++ es₁)]
    exact ⟨⟨_, ht₂⟩, fun hp => nomatch hp⟩
  | yield s =>
    obtain ⟨rfl, rfl, rfl⟩ := pure_ok.mp hrest'
    rw [List.append_nil (es ++ es₁)]
    exact ⟨⟨_, ht₂⟩, fun hp => nomatch hp⟩
  | enter e =>
    obtain ⟨_, w₃, es₃, es₄, h₃, hend, rfl⟩ := bind_ok.mp hrest'
    obtain ⟨rfl, rfl, rfl⟩ := pure_ok.mp hend
    rw [List.append_nil es₃]
    exact ⟨⟨_, ht₂.enter h₃⟩, fun hp => nomatch hp⟩

/-- A round hands out a sink at most, and at the end of the walk none is open. -/
theorem round {roots : List NodeId} {progress : Progress} (hc : Coherent even w roots)
    (h : Tracked even ss ls es w) (hr : (Logged.round o).Ok w progress w' es') :
    (∃ ls', Tracked even (ss ++ progress.given) ls' (es ++ es') w')
      ∧ (progress = .finished → w'.sink = none) := by
  obtain ⟨_, w₁, es₁, es₂, h₁, hrest, rfl⟩ := bind_ok.mp hr
  obtain ⟨ls₁, ht⟩ := h.rotate hc h₁
  have hrot := h₁.1
  rw [Logged.run_rotate] at hrot
  obtain ⟨hc₁, -, hnone⟩ := hc.rotate hrot
  have goOn : (∃ ls', Tracked even ss ls' (es ++ es₁ ++ es₂) w') →
      (∃ ls', Tracked even (ss ++ Progress.goOn.given) ls' (es ++ (es₁ ++ es₂)) w')
        ∧ (Progress.goOn = .finished → w'.sink = none) := by
    intro hx
    rw [← List.append_assoc, show Progress.goOn.given = [] from rfl, List.append_nil]
    exact ⟨hx, fun hp => nomatch hp⟩
  replace hrest := get_bind_ok.mp hrest
  cases hf : w₁.frames with
  | nil =>
    simp only [hf] at hrest
    have hls : ls₁ = [] := by
      rw [← List.length_eq_zero_iff, ht.depth, hc₁.leveled.depth, hf]
      rfl
    subst hls
    replace hrest := get_bind_ok.mp hrest
    cases hs : w₁.sink with
    | none =>
      simp only [hs] at hrest
      obtain ⟨rfl, rfl, rfl⟩ := pure_ok.mp hrest
      rw [← List.append_assoc, List.append_nil, show Progress.given .finished = [] from rfl, List.append_nil]
      exact ⟨⟨_, ht⟩, fun _ => hs⟩
    | some s =>
      simp only [hs] at hrest
      obtain ⟨es₃, hyield, rfl⟩ := emit_bind_ok.mp (set_bind_ok.mp hrest)
      obtain ⟨rfl, rfl, rfl⟩ := pure_ok.mp hyield
      rw [← List.append_assoc, List.append_nil [Event.yielded s.flush], Walk.keep_rest]
      exact ⟨⟨[], .closed (ht.finish hs) ht.depth rfl⟩, fun hp => nomatch hp⟩
  | cons f more =>
    simp only [hf] at hrest
    obtain ⟨l, ls', rfl⟩ := ht.exists_level hc₁ hf
    have hstack := hc₁.stack
    rw [hf] at hstack
    obtain ⟨r, rs, rfl⟩ := hstack.roots_cons
    cases htake : Walk.takeRun f with
    | none =>
      simp only [htake] at hrest
      obtain ⟨_, w₂, es₃, es₄, hleave, hend, rfl⟩ := bind_ok.mp hrest
      obtain ⟨rfl, rfl, rfl⟩ := pure_ok.mp hend
      rw [List.append_nil] at goOn ⊢
      exact goOn ⟨_, ht.leave hc₁.wellFormed hleave⟩
    | some taken =>
      obtain ⟨run, g⟩ := taken
      simp only [htake] at hrest
      replace hrest := set_bind_ok.mp hrest
      cases hn : run.next with
      | some n =>
        simp only [hn] at hrest
        obtain ⟨ha, hne⟩ := ht.advance hc₁ hf htake hn hrest
        rw [← List.append_assoc]
        exact ⟨ha, fun hp => absurd hp hne⟩
      | none =>
        simp only [hn] at hrest
        obtain ⟨_, w₂, es₃, es₄, hask, hend, rfl⟩ := bind_ok.mp hrest
        obtain ⟨rfl, rfl, rfl⟩ := pure_ok.mp hend
        rw [List.append_nil] at goOn ⊢
        obtain ⟨-, hloops, -⟩ := hc₁.visiting hf htake
        obtain ⟨p, hended⟩ := hc₁.runEnded hf htake
        have hgo : Tracked even ss (l :: ls') (es ++ es₁) { w₁ with frames := g :: more } :=
          ht.of_eq rfl rfl
        refine goOn (closeLoops (k := levelsOf more) hended ?_ hgo hask)
        have hk := hc₁.leveled
        rw [hf, Walk.levelsOf_cons, Nat.add_right_comm] at hk
        rw [hloops]
        exact ⟨hk.depth, fun hfalse => hfalse.elim⟩

/-- Rounds lead to a sink that is handed out, or to the end, where none is open. -/
theorem rounds {roots : List NodeId} {n : Nat} {x : Option Sink} (hc : Coherent even w roots)
    (h : Tracked even ss ls es w) (hr : (Logged.rounds o n).Ok w x w' es') :
    (∃ roots', Coherent even w' roots') ∧ (∃ ls', Tracked even (ss ++ x.toList) ls' (es ++ es') w')
      ∧ (x = none → w'.sink = none) := by
  induction n generalizing w roots ls es es' with
  | zero => exact (Action.fail_eq_ok.mp (lift_ok.mp hr).1).elim
  | succ n ih =>
    unfold Logged.rounds at hr
    obtain ⟨progress, w₁, es₁, es₂, h₁, hrest, rfl⟩ := bind_ok.mp hr
    obtain ⟨⟨ls₁, ht⟩, hend⟩ := h.round hc h₁
    have hround := h₁.1
    rw [Logged.run_round] at hround
    obtain ⟨roots₁, hc₁⟩ := hc.round hround
    rw [← List.append_assoc]
    cases progress with
    | goOn =>
      rw [show Progress.given .goOn = [] from rfl, List.append_nil] at ht
      exact ih hc₁ ht hrest
    | yield s =>
      obtain ⟨rfl, rfl, rfl⟩ := pure_ok.mp hrest
      rw [List.append_nil (es ++ es₁)]
      exact ⟨⟨_, hc₁⟩, ⟨_, ht⟩, fun hx => nomatch hx⟩
    | finished =>
      obtain ⟨rfl, rfl, rfl⟩ := pure_ok.mp hrest
      rw [List.append_nil (es ++ es₁)]
      exact ⟨⟨_, hc₁⟩, ⟨_, ht⟩, fun _ => hend rfl⟩

end Tracked

/-! ## Whole walks -/

section
variable {even : Prop} {ss : List Sink} {ls : List (List Waiting)} {es : List Event} {w w' : Walk}
  {o : Options} {fuel n : Nat} {s : Walk.Setup} {x : Option Sink}

theorem Logged.pull_ok (h : Walk.pull o fuel w = (.ok x, w')) :
    ∃ w₁, (Logged.pull o fuel w.phase).Ok w x w₁ ((Logged.pull o fuel w.phase).log w)
      ∧ ∀ s, x = some s → w' = w₁ := by
  rw [Logged.run_pull] at h
  unfold Action.outcome at h
  cases hr : (Logged.pull o fuel w.phase).run w with
  | error e w₁ => simp only [hr] at h; cases h
  | ok y w₁ =>
    cases y with
    | none =>
      simp only [hr] at h
      cases h
      exact ⟨w₁, ⟨hr, rfl⟩, fun _ hx => nomatch hx⟩
    | some s =>
      simp only [hr] at h
      cases h
      exact ⟨w', ⟨hr, rfl⟩, fun _ _ => rfl⟩

/-- The next pull hands out a sink, or it leads to the end of the walk, where none is open. -/
def Pulls (even : Prop) (ss : List Sink) (es : List Event) (o : Options) (fuel : Nat) (w : Walk) : Prop :=
  ∀ x w' es', (Logged.pull o fuel w.phase).Ok w x w' es' →
    (∃ roots, Coherent even w' roots) ∧ (∃ ls, Tracked even (ss ++ x.toList) ls (es ++ es') w')
      ∧ (x = none → w'.sink = none)

theorem Tracked.pulls {roots : List NodeId} (hc : Coherent even w roots)
    (h : Tracked even ss ls es w) : Pulls even ss es o fuel w := by
  intro x w' es' hp
  rw [hc.phase] at hp
  exact h.rounds hc hp

theorem Pulls.begin (s : Walk.Setup) :
    Pulls s.Fresh [] (s.sink.map Event.opened).toList o fuel (Walk.begin s) := by
  intro x w' es' hp
  obtain ⟨_, w₁, es₁, es₂, h₁, h₂, rfl⟩ := bind_ok.mp hp
  have hc : Coherent s.Fresh w₁ [0] := .start h₁.1
  have hstart : Tracked s.Fresh [] [] (s.sink.map Event.opened).toList
      { Walk.begin s with phase := .running, main := (Walk.begin s).main.map fun t => t.read.2 } := by
    cases hs : s.sink with
    | none => exact .closed .nil rfl hs
    | some a =>
      have hnone : Handed s.Fresh [] [] := .nil
      exact .opened hnone rfl hs (fun hf => hf a hs) (.nil .nil) (.refl a) rfl
  have ht : Tracked s.Fresh [] _ _ w₁ := hstart.enter (modify_bind_ok.mp h₁)
  rw [← List.append_assoc]
  exact ht.rounds hc h₂

theorem Pulls.pullAll {ss' : List Sink} (h : Pulls even ss es o fuel w)
    (hp : Walk.pullAll o fuel n w = (.ok ss', w')) :
    Handed even (es ++ Logged.pullAllLog o fuel n w) (ss ++ ss') := by
  induction n generalizing w ss ss' es with
  | zero => cases hp
  | succ n ih =>
    unfold Walk.pullAll at hp
    unfold Logged.pullAllLog
    cases hpull : Walk.pull o fuel w with
    | mk result w₁ =>
      simp only [hpull] at hp ⊢
      cases result with
      | error e => cases hp
      | ok x =>
        obtain ⟨w₂, hok, hw⟩ := Logged.pull_ok hpull
        obtain ⟨⟨roots, hc⟩, ⟨ls, ht⟩, hend⟩ := h _ _ _ hok
        cases x with
        | none =>
          cases hp
          dsimp only
          rw [List.append_nil]
          exact ht.handed (hend rfl)
        | some s =>
          obtain rfl := hw s rfl
          dsimp only at hp
          cases hrest : Walk.pullAll o fuel n w₁ with
          | mk result w₃ =>
            simp only [hrest] at hp
            cases result with
            | error e => cases hp
            | ok rest =>
              cases hp
              have hhanded := ih (ht.pulls hc) hrest
              rw [List.append_assoc, List.append_assoc] at hhanded
              exact hhanded

end

end Stencil
