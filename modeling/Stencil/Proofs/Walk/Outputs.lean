/-
  What becomes of outputs.

  The open sink has as many levels as the walk counts, and at its end the walk has handed out each sink
  that was open, in turn, with no level and nothing that waits.  A lazy field that waits is written again
  once, on the sink that it waits on, and no level is closed before that.
-/
import Mathlib.Data.List.Forall2
import Stencil.Proofs.Walk.Handed

set_option autoImplicit false

namespace Stencil

/-- The sinks that are opened. -/
def openings (es : List Event) : List Sink :=
  es.filterMap fun
    | .opened s => some s
    | _ => none

/-! ## What the log of an output holds -/

/-- A closed level is one on which nothing waits. -/
def Event.Clean : Event → Prop
  | .popped level => level = []
  | _ => True

/-- What happens to an open sink: none is opened meanwhile. -/
def Event.Inner : Event → Prop
  | .opened _ => False
  | e => e.Clean

theorem Event.Inner.clean {e : Event} (h : e.Inner) : e.Clean := by
  cases e with
  | opened => exact h.elim
  | pushed | popped | queued | replayed | yielded => exact h

theorem openings_of_inner {es : List Event} (h : ∀ e ∈ es, e.Inner) : openings es = [] := by
  refine List.filterMap_eq_nil_iff.mpr fun e he => ?_
  have hi := h e he
  cases e with
  | opened => exact hi.elim
  | pushed | popped | queued | replayed | yielded => rfl

theorem Settled.inner {es : List Event} (h : Settled es) : ∀ e ∈ es, e.Inner := by
  induction h with
  | nil => exact fun _ he => nomatch he
  | append _ _ ih ih' => exact fun e he => (List.mem_append.mp he).elim (ih e) (ih' e)
  | level _ ih =>
    intro e he
    rcases List.mem_append.mp he with he | he
    · rcases List.mem_cons.mp he with rfl | he
      · exact trivial
      · exact ih e he
    · rw [List.mem_singleton.mp he]
      rfl
  | field _ ih =>
    intro e he
    rcases List.mem_append.mp he with he | he
    · rcases List.mem_cons.mp he with rfl | he
      · exact trivial
      · exact ih e he
    · rw [List.mem_singleton.mp he]
      exact trivial

theorem inner_closing (ls : List (List Waiting)) : ∀ e ∈ closing ls, e.Inner := by
  intro e he
  obtain ⟨l, -, he⟩ := List.mem_flatMap.mp he
  rcases List.mem_append.mp he with he | he
  · obtain ⟨w, -, rfl⟩ := List.mem_map.mp he
    exact trivial
  · rw [List.mem_singleton.mp he]
    rfl

namespace Handed

variable {even : Prop} {es : List Event} {ss : List Sink}

theorem clean (h : Handed even es ss) : ∀ e ∈ es, e.Clean := by
  induction h with
  | nil => exact fun _ he => nomatch he
  | @snoc es body ss a s ls _ _ hbody _ _ _ ih =>
    intro e he
    simp only [List.mem_append, List.mem_cons, List.not_mem_nil, or_false] at he
    rcases he with he | ((rfl | he) | he) | rfl
    · exact ih e he
    · exact trivial
    · exact (hbody.inner e he).clean
    · exact (inner_closing ls e he).clean
    · exact trivial

/-- The outputs that have been handed out are those that have been opened. -/
theorem openings (h : Handed even es ss) : List.Forall₂ SameSink (openings es) ss := by
  induction h with
  | nil => exact .nil
  | @snoc es body ss a s ls _ _ hbody hsame _ _ ih =>
    have hopen : Stencil.openings (es ++ (.opened a :: body ++ closing ls ++ [.yielded s]))
        = Stencil.openings es ++ [a] := by
      have hb := openings_of_inner hbody.inner
      have hc := openings_of_inner (inner_closing ls)
      unfold Stencil.openings at hb hc ⊢
      rw [List.filterMap_append, List.cons_append, List.cons_append, List.filterMap_cons,
        List.filterMap_append, List.filterMap_append, hb, hc]
      rfl
    rw [hopen]
    exact List.rel_append ih (.cons hsame .nil)

theorem finished (he : even) (h : Handed even es ss) : ∀ s ∈ ss, s.flush = s ∧ s.levels = [] := by
  induction h with
  | nil => exact fun _ hs => nomatch hs
  | @snoc es body ss a s ls _ hfresh _ _ hflush hl ih =>
    intro s' hs'
    rcases List.mem_append.mp hs' with hs' | hs'
    · exact ih s' hs'
    · rw [List.mem_singleton.mp hs']
      rw [hfresh he] at hl
      exact ⟨hflush, (List.append_eq_nil_iff.mp hl.symm).2⟩

end Handed

/-! ## Outputs of a walk -/

namespace Walk

variable {o : Options} {fuel n : Nat} {ss : List Sink} {w : Walk}

/-- Between two rounds the open sink has a level for each document that is walked and one for each loop
    that has started a second run.  A walk that ends without an error has handed out each sink that was
    opened, in turn: nothing is held back, no level is open, and nothing waits. -/
theorem outputs_nest_and_are_handed_out (o : Options) (s : Setup) (hs : s.Fresh) :
    (∀ w, Reached o s w →
      w.depth = w.frames.length
          + (w.frames.map fun f => (f.loops.filter fun l => 2 ≤ l.count).length).sum
        ∧ ∀ k, w.sink = some k → k.depth = w.depth)
      ∧ ∀ fuel n ss w, pullAll o fuel n (begin s) = (.ok ss, w) →
        List.Forall₂ SameSink (openings (Logged.walkLog o fuel n s)) ss
          ∧ ∀ k ∈ ss, k.flush = k ∧ k.levels = [] := by
  refine ⟨fun w hw => ?_, fun fuel n ss w hp => ?_⟩
  · obtain ⟨roots, hc⟩ := hw.coherent
    exact ⟨hc.leveled.depth, fun k hk => (hc.leveled.sink hs k hk).trans hc.leveled.depth.symm⟩
  · have hh : Handed s.Fresh (Logged.walkLog o fuel n s) ss := (Pulls.begin s).pullAll hp
    exact ⟨hh.openings, hh.finished hs⟩

/-- A loop of two runs with a lazy field and a change of output in it: with the sink that is open at the
    beginning there are three outputs. -/
theorem outputs_nest_and_are_handed_out_in_loop :
    let field : Element := .mk "item" [("eval", "lazy")] "" .none [.mk "default-value" [] "x" .none []]
    let change : Element := .mk "writer" [("type", "memory")] "" .none []
    let loop : Element := .mk "repeat" [("max", "2")] "" .none [field, change]
    let layout : Element := .mk "layout" [] "" .none [loop]
    let s : Setup :=
      ⟨⟨layout, none, none⟩, [], some (.inMemory ""), .memory, .zero, .stored [], .empty⟩
    s.Fresh ∧ (∃ o w, Reached o s w ∧ w.depth = w.frames.length
        + (w.frames.map fun f => (f.loops.filter fun l => 2 ≤ l.count).length).sum)
      ∧ ∃ o fuel n ss w, pullAll o fuel n (begin s) = (.ok ss, w) ∧ ss.length = 3
        ∧ List.Forall₂ SameSink (openings (Logged.walkLog o fuel n s)) ss
        ∧ ∀ k ∈ ss, k.flush = k ∧ k.levels = [] := by
  intro field change loop layout s
  let o : Options := .standard ⟨2000, 1, 1, 0, 0, 0, 0⟩
  have hs : s.Fresh := by
    intro k hk
    cases hk
    rfl
  have hstart : Action.succeeds (start o ⟨0, none⟩ (begin s)) (fun _ _ => true) = true := by
    decide +kernel
  obtain ⟨_, w, hw, -⟩ := Action.succeeds_iff.mp hstart
  have hlength : (pullAll o 30 4 (begin s)).1.toOption.map List.length = some 3 := by decide +kernel
  cases hp : pullAll o 30 4 (begin s) with | mk result w' =>
  rw [hp] at hlength
  cases result with
  | error e => cases hlength
  | ok ss =>
    obtain ⟨hnest, hhanded⟩ := outputs_nest_and_are_handed_out o s hs
    exact ⟨hs, ⟨o, w, .start hw, (hnest w (.start hw)).1⟩,
      o, 30, 4, ss, w', hp, Option.some.inj hlength, hhanded 30 4 ss w' hp⟩

/-- In a walk that ends without an error, what happens to each output is settled before it is handed out:
    each lazy field that has been left to wait is written again once.  No level is closed on which a field
    waits. -/
theorem waiting_fields_are_replayed_once {s : Setup}
    (h : pullAll o fuel n (begin s) = (.ok ss, w)) :
    Handed s.Fresh (Logged.walkLog o fuel n s) ss
      ∧ ∀ level, .popped level ∈ Logged.walkLog o fuel n s → level = [] := by
  have hh : Handed s.Fresh (Logged.walkLog o fuel n s) ss := (Pulls.begin s).pullAll h
  exact ⟨hh, fun level he => hh.clean _ he⟩

/-- A lazy field in a loop of three runs waits on the level around the loop in the first run, and on the
    level of the loop from then on. -/
theorem waiting_fields_are_replayed_once_in_loop :
    let field : Element := .mk "item" [("eval", "lazy")] "" .none [.mk "default-value" [] "x" .none []]
    let loop : Element := .mk "repeat" [("max", "3")] "" .none [field]
    let layout : Element := .mk "layout" [] "" .none [loop]
    let s : Setup :=
      ⟨⟨layout, none, none⟩, [], some (.inMemory ""), .memory, .zero, .stored [], .empty⟩
    ∃ o fuel n ss w, pullAll o fuel n (begin s) = (.ok ss, w)
      ∧ ss.map Sink.toBytes = [[120, 120, 120]] ∧ Handed s.Fresh (Logged.walkLog o fuel n s) ss
      ∧ ∀ level, .popped level ∈ Logged.walkLog o fuel n s → level = [] := by
  intro field loop layout s
  let o : Options := .standard ⟨2000, 1, 1, 0, 0, 0, 0⟩
  have hbytes : (pullAll o 30 2 (begin s)).1.toOption.map (List.map Sink.toBytes)
      = some [[120, 120, 120]] := by decide +kernel
  cases hp : pullAll o 30 2 (begin s) with | mk result w =>
  rw [hp] at hbytes
  cases result with
  | error e => cases hbytes
  | ok ss => exact ⟨o, 30, 2, ss, w, hp, Option.some.inj hbytes, waiting_fields_are_replayed_once hp⟩

end Walk

end Stencil
