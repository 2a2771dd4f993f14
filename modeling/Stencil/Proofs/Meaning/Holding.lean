/-
  An open sink in which nothing waits.

  In a template without lazy fields, and without fields at a place of their own, nothing ever waits in the sink that
  is open, and its position is behind its last byte (`Still`).  So completing it does nothing, handing it out cannot
  fail, and each field puts its bytes behind the others: the sink of a walk holds what has been written so far
  (`Holding`).
-/
import Stencil.Proofs.Field
import Stencil.Proofs.Stream
import Stencil.Proofs.Walk.Parts
import Stencil.Walk.Round

set_option autoImplicit false

namespace Stencil

/-! ## Sinks -/

namespace Sink

variable {s : Sink} {bs : Bytes}

/-- Nothing waits in a sink, and its position is behind its last byte. -/
structure Still (s : Sink) : Prop where
  levels : ∀ level ∈ s.levels, level = []
  position : s.stream.position = s.stream.bytes.size

theorem Still.push (h : s.Still) : s.push.Still :=
  ⟨List.forall_mem_cons.mpr ⟨rfl, h.levels⟩, h.position⟩

theorem Still.pop (h : s.Still) : s.pop.Still :=
  ⟨fun level hl => h.levels level (List.mem_of_mem_tail hl), h.position⟩

theorem Still.headD (h : s.Still) : s.levels.headD [] = [] := by
  cases hs : s.levels with
  | nil => rfl
  | cons level levels => exact h.levels level (hs ▸ List.mem_cons_self)

theorem toBytes_flush (s : Sink) : s.flush.toBytes = s.toBytes := by
  unfold toBytes
  rw [stream_flush]

theorem Still.flush (h : s.Still) : s.flush.Still := by
  refine ⟨?_, ?_⟩
  · rw [levels_flush]
    exact h.levels
  · rw [stream_flush]
    exact h.position

theorem Still.atEnd (h : s.Still) : s.stream.AtEnd := h.position.trans (Stream.length_toBytes _).symm

/-- Bytes are written behind the others. -/
theorem Still.emit (h : s.Still) (bs : Bytes) : (s.emit none bs).Still ∧ (s.emit none bs).toBytes = s.toBytes ++ bs := by
  obtain ⟨hbytes, hend⟩ := h.atEnd.write bs
  exact ⟨⟨h.levels, hend.trans (Stream.length_toBytes _)⟩, hbytes⟩

theorem still_of_empty {name : String} {target : Target} : (⟨name, .empty false, [], target⟩ : Sink).Still :=
  ⟨fun _ hl => absurd hl List.not_mem_nil, rfl⟩

theorem Still.pushes (h : s.Still) (n : Nat) :
    (Nat.repeat Sink.push n s).Still ∧ (Nat.repeat Sink.push n s).stream = s.stream := by
  induction n with
  | zero => exact ⟨h, rfl⟩
  | succ n ih => exact ⟨ih.1.push, ih.2⟩

end Sink

/-! ## Completing levels -/

namespace Job

variable {o : Options} {files : Files} {j : Job}

theorem writeChunk_of_still (h : j.sink.Still) : writeChunk o files j = .ok () j := by
  rw [writeChunk, Action.get_bind, h.headD]
  rfl

theorem closeLevels_of_still {n : Nat} (h : j.sink.Still) (hn : j.sink.levels.length = n) :
    closeLevels o files n j = .ok () { j with sink := { j.sink with levels := [] } } := by
  induction n generalizing j with
  | zero =>
    obtain ⟨space, name, stream, levels, target⟩ := j
    obtain rfl := List.length_eq_zero_iff.mp hn
    rfl
  | succ n ih =>
    rw [closeLevels, Action.bind_of_ok (writeChunk_of_still h), modifySink, Action.modify_bind]
    have hlen : j.sink.levels.tail.length = n := by
      rw [List.length_tail, hn]
      rfl
    exact ih (j := { j with sink := j.sink.pop }) h.pop hlen

theorem closeAll_of_still (h : j.sink.Still) :
    closeAll o files j = .ok () { j with sink := { j.sink with levels := [] } } := by
  rw [closeAll, Action.get_bind]
  exact closeLevels_of_still h rfl

end Job

/-! ## Walks -/

namespace Walk

variable {o : Options} {w w' : Walk} {k : Sink} {bs : Bytes}

/-- The sink `k`, which is open, holds what has been written to it, and nothing waits in it. -/
def Holding (w : Walk) (k : Sink) (bs : Bytes) : Prop :=
  ∃ s, w.sink = some s ∧ s.Still ∧ s.toBytes = bs ∧ SameSink k s

theorem Holding.of_eq (h : Holding w k bs) (hs : w'.sink = w.sink) : Holding w' k bs := by
  obtain ⟨s, hw, hrest⟩ := h
  exact ⟨s, hs.trans hw, hrest⟩

theorem Holding.push (h : Holding w k bs) (hs : w'.sink = w.sink.map Sink.push) : Holding w' k bs := by
  obtain ⟨s, hw, hstill, hbytes, hsame⟩ := h
  exact ⟨s.push, by rw [hs, hw]; rfl, hstill.push, hbytes, hsame.trans (.levels s _)⟩

theorem Holding.pop (h : Holding w k bs) (hs : w'.sink = w.sink.map Sink.pop) : Holding w' k bs := by
  obtain ⟨s, hw, hstill, hbytes, hsame⟩ := h
  exact ⟨s.pop, by rw [hs, hw]; rfl, hstill.pop, hbytes, hsame.trans (.levels s _)⟩

/-- Bytes that are written are held, too. -/
theorem Holding.emit {s : Sink} {cs : Bytes} (h : Holding w k bs) (hw : w.sink = some s)
    (hs : w'.sink = some (s.flush.emit none cs)) : Holding w' k (bs ++ cs) := by
  obtain ⟨s', hw', hstill, hbytes, hsame⟩ := h
  rw [hw] at hw'
  cases hw'
  obtain ⟨hstill', hbytes'⟩ := hstill.flush.emit cs
  refine ⟨_, hs, hstill', ?_, (hsame.trans (.flush s)).trans (.emit _ none cs)⟩
  rw [hbytes', Sink.toBytes_flush, hbytes]

/-- Completing a level does nothing. -/
theorem Holding.completeLevel (h : Holding w k bs) : completeLevel o w = .ok () w := by
  obtain ⟨s, hw, hstill, -⟩ := h
  unfold Walk.completeLevel onSink
  simp only [hw]
  rw [Job.writeChunk_of_still (j := ⟨w.space, s⟩) hstill]
  dsimp only
  rw [← hw]

/-- The level of a loop is there, or it is completed; neither does anything but that. -/
theorem Holding.level (h : Holding w k bs) (seq : Option Nat) :
    ∃ w', (if seq = some 0 then pushLevel else Walk.completeLevel o) w = .ok () w' ∧ Holding w' k bs
      ∧ w' = { w with sink := w'.sink, depth := w'.depth } := by
  split
  · exact ⟨_, pushLevel_eq_ok.mpr rfl, h.push rfl, rfl⟩
  · exact ⟨w, h.completeLevel, h, rfl⟩

/-- Handing out the open sink does nothing else. -/
theorem Holding.takeSink (h : Holding w k bs) : ∃ s, w.sink = some s ∧ ∃ s', s'.toBytes = bs ∧
    Walk.takeSink o s w = .ok s'.flush (keep s' { w with sink := none }) := by
  obtain ⟨s, hw, hstill, hbytes, -⟩ := h
  refine ⟨s, hw, { s with levels := [] }, hbytes, ?_⟩
  unfold Walk.takeSink
  dsimp only
  rw [Job.closeAll_of_still (j := ⟨w.space, s⟩) hstill]

/-- A document can be left, and that writes nothing. -/
theorem Holding.leave {f : Frame} {more : List Frame} (h : Holding w k bs) (hf : w.frames = f :: more) :
    ∃ w', Walk.leave o w = .ok () w' ∧ w'.frames = more ∧ w'.rotation = w.rotation ∧ Holding w' k bs := by
  have hpop : popLevel w = .ok () { w with sink := w.sink.map Sink.pop, depth := w.depth - 1 } :=
    popLevel_eq_ok.mpr rfl
  rw [Walk.leave, Action.bind_of_ok h.completeLevel, Action.bind_of_ok hpop, Action.get_bind]
  simp only [hf]
  have hold : ∀ space, Holding { w with space, frames := more, sink := w.sink.map Sink.pop, depth := w.depth - 1 } k bs :=
    fun _ => h.pop rfl
  cases f.owned with
  | none => exact ⟨_, rfl, rfl, rfl, hold w.space⟩
  | some root => exact ⟨_, rfl, rfl, rfl, hold { w.space with tree := w.space.tree.release root }⟩

end Walk

end Stencil
