/-
  The end of a run on an agenda.

  At the end of a run of siblings, no element comes next on the agenda either.  If the run is one of a loop, the loop
  is asked for one more run, in the walk and on the agenda, and if it ends and nothing is behind it, the loop around it
  is asked, and so on.  Each loop that is asked is one step of the agenda; one more step may lead out of a group.
-/
import Stencil.Proofs.Meaning.Visiting

set_option autoImplicit false

namespace Stencil.Meaning

open Stencil.Walk (Holding RunEnded AtLoopEnd WrittenUp IsRoot takeRun turn closeLoops askLoop strayLoop dropLoop cascades)
open Loop.Turn (Continues Ends)

variable {outputs stray : Bool} {p q : NodeId} {a a' : Agenda} {w w₁ w₂ w₃ w' : Walk} {f : Frame} {loops outer : List Loop}
  {around : List Surrounding} {o : Options} {k : Sink} {bs : Bytes} {parents : List NodeId} {key : String} {l l' : Loop}
  {body behind : List Element} {s : Loop.Turn}

/-- A run of siblings below `p` has ended in a walk that follows an agenda. -/
structure Closing (outputs stray : Bool) (w : Walk) (f : Frame) (p : NodeId) (key : String) (parents : List NodeId)
    (a : Agenda) : Prop where
  ended : RunEnded w f [] 0 p key parents
  afoot : Afoot stray w f a
  surrounded : Surrounded outputs w.space.tree 0 p f.loops f.scan a.outer
  ahead : a.ahead = []
  rotation : w.rotation = none

/-- What asking the loops around comes to in a walk that follows an agenda, if the open sink `k` holds the bytes
    `bs`. -/
def Closes (outputs stray : Bool) (k : Sink) (bs : Bytes) (a : Agenda) : EStateM.Result Error Walk Unit → Prop
  | .error _ _ => ∃ cs, Outcome stray a cs false
  | .ok _ w => ∃ a', Leads stray a [] a' ∧ Tracks outputs stray w a' ∧ Holding w k bs ∧ w.rotation = none

theorem Closes.of_leads {r : EStateM.Result Error Walk Unit} (hl : Leads stray a [] a')
    (h : Closes outputs stray k bs a' r) : Closes outputs stray k bs a r := by
  cases r with
  | error e w =>
    obtain ⟨cs, hcs⟩ := h
    exact ⟨_, hl _ _ hcs⟩
  | ok u w =>
    obtain ⟨a₂, hl₂, hrest⟩ := h
    exact ⟨a₂, hl.trans hl₂, hrest⟩

/-! ## Around a run that has ended -/

/-- Nothing is around directly below the root. -/
theorem Surrounded.top_of_nil {t : Tree} {root : NodeId} {scan : List Position}
    (h : Surrounded outputs t root p loops scan []) : p = root ∧ loops = [] ∧ scan = [] := by
  cases h
  exact ⟨rfl, rfl, rfl⟩

/-- If no loop runs around a run of a loop, that is the template itself. -/
theorem Surrounded.top_of_repeat {t : Tree} {root : NodeId} {scan : List Position}
    (h : Surrounded outputs t root p [] scan around) (hname : t.name p = "repeat") : p = root ∧ around = [] := by
  cases h with
  | top => exact ⟨rfl, rfl⟩
  | group _ _ hitems =>
    rw [hitems] at hname
    exact absurd hname (by decide)

/-- Where no loop has to be asked, the walk is over or goes on behind the group that it leaves. -/
theorem exists_tracks_outward (hafoot : Afoot stray w f a)
    (hsur : Surrounded outputs w.space.tree 0 p f.loops f.scan a.outer) (hahead : a.ahead = [])
    (hrot : w.rotation = none) (hname : w.space.tree.name p = "repeat" → f.loops = [])
    (hends : a.outer = [] → a.step stray = .ends) : ∃ a', Leads stray a [] a' ∧ Tracks outputs stray w a' := by
  generalize hloops : f.loops = loops at hsur hname
  generalize hscan : f.scan = scan at hsur
  generalize hout : a.outer = around at hsur
  cases hsur with
  | top =>
    refine ⟨a, .refl a, .finished (.inr ⟨f, hafoot.frames, ?_⟩) hrot (hends hout)⟩
    unfold takeRun
    rw [hafoot.idle, hscan]
  | @group _ q back loops scan around behind houter hparent _ hback =>
    have hstep : a.step stray = .goesOn [] { a with key := back.key, ahead := behind, outer := around } := by
      unfold Agenda.step
      rw [hahead, hout]
      rfl
    refine ⟨_, .of_step hstep, .of_scan (q := q) ?_ hscan ?_ rfl hback hrot⟩
    · exact hafoot.of_eq hafoot.frames (.refl f) hafoot.idle ⟨hafoot.records.main, hafoot.records.secondary⟩ rfl
    · rw [hloops]
      exact houter
  | loop _ _ hrepeat => exact absurd (hname hrepeat) (List.cons_ne_nil _ _)

/-! ## Asking a loop -/

/-- A run of a loop has ended, and the loop is about to be asked. -/
structure AtRunEnd (outputs stray : Bool) (w : Walk) (f : Frame) (p q : NodeId) (l : Loop) (outer : List Loop)
    (around : List Surrounding) (body behind : List Element) (a : Agenda) : Prop where
  atEnd : AtLoopEnd w f [] 0 p q l outer
  atLoop : AtLoop outputs stray w f q l outer body behind { a with outer := around }
  outer : a.outer = .loop { l with anchor := 0 } body behind :: around
  ahead : a.ahead = []
  rotation : w.rotation = none

namespace AtRunEnd

variable (h : AtRunEnd outputs stray w f p q l outer around body behind a)

include h

theorem step_eq : a.step stray = match { a with outer := around }.turn { l with anchor := 0 } body behind with
    | none => .fails
    | some (true, a') => .goesOn [] a'
    | some (false, a') => if behind.isEmpty && around.isEmpty then .ends else .goesOn [] a' := by
  have hleave : a.step stray = a.leave stray a.outer := by
    unfold Agenda.step
    rw [h.ahead]
  rw [hleave, h.outer]
  rfl

/-- The loop fails. -/
theorem fails {err : Error} (ht : turn f l w = .error err w₂) : a.step stray = .fails := by
  rw [h.step_eq, h.atLoop.turn_error ht]

/-- The loop goes on. -/
theorem goesOn (hold : Holding w k bs) (ht : turn f l w = .ok (true, l') w₂) : ∃ w₃,
    Walk.modifyFrame (fun f => { f with loops := l' :: outer }) w₂ = .ok () w₃ ∧ ∃ a', Leads stray a [] a'
      ∧ Tracks outputs stray w₃ a' ∧ Holding w₃ k bs ∧ w₃.rotation = none := by
  obtain ⟨s, a', rfl, hturned, hnext, hturn, hr, hkey, hahead, houter⟩ := h.atLoop.turn_ok ht
  have hc : Continues _ q s := hnext
  have hrot : w₂.rotation = none := hturned.rotation.trans h.rotation
  have hstep := h.step_eq
  rw [hturn] at hstep
  refine ⟨_, Walk.modifyFrame_eq_ok.mpr rfl, a', .of_step hstep, ?_⟩
  simp only [hturned.frames]
  exact ⟨h.atLoop.tracks_run hc hturned.tree rfl hrot ⟨hr.main, hr.secondary⟩ hkey hahead houter,
    hold.of_eq hturned.sink, hrot⟩

/-- The loop has ended, and behind it there is nothing: the run that it stands in has ended, too, and either that is
    a run of a loop, or the walk goes on elsewhere. -/
theorem ends_last {g : Frame} (hat : Afoot stray w₃ g a') (htree : w₃.space.tree = w.space.tree)
    (hrot : w₃.rotation = none) (hsur : Surrounded outputs w₃.space.tree 0 q g.loops g.scan around)
    (hnone : w.space.tree.nextSibling? p = none) (houter : a'.outer = around) (hahead : a'.ahead = [])
    (hstep : a.step stray = if around.isEmpty then .ends else .goesOn [] a') :
    if cascades w₃.space.tree g.loops p then Leads stray a [] a'
      else ∃ a', Leads stray a [] a' ∧ Tracks outputs stray w₃ a' := by
  have hq : w₃.space.tree.parent? p = some q := by
    rw [htree]
    exact h.atEnd.parent
  cases around with
  | nil =>
    -- the loop stands directly below the root, and the walk of the template is over
    obtain ⟨-, hloops, hscan⟩ := hsur.top_of_nil
    have hcas : ¬ cascades w₃.space.tree g.loops p = true := fun hc => (Walk.cascades_iff.mp hc).1 hloops
    rw [if_neg hcas]
    refine ⟨a, .refl a, .finished (.inr ⟨g, hat.frames, ?_⟩) hrot hstep⟩
    unfold takeRun
    rw [hat.idle, hscan]
  | cons x around =>
    have hl : Leads stray a [] a' := .of_step hstep
    split
    · exact hl
    · rename_i hcas
      rw [← houter] at hsur
      have hloops (hname : w₃.space.tree.name q = "repeat") : g.loops = [] :=
        Decidable.byContradiction fun hne =>
          hcas (Walk.cascades_iff.mpr ⟨hne, (congrArg (·.nextSibling? p) htree).trans hnone, q, hq, hname⟩)
      have hne : ¬ a'.outer = [] := by
        rw [houter]
        exact List.cons_ne_nil _ _
      obtain ⟨a₂, hl₂, htracks⟩ := exists_tracks_outward hat hsur hahead hrot hloops fun hempty => absurd hempty hne
      exact ⟨a₂, hl.trans hl₂, htracks⟩

/-- A loop that has ended is dropped. -/
theorem exists_dropped {s : Loop.Turn} (hold : Holding w k bs) (ht : Walk.Turned w f [] s w₂)
    (he : Ends ⟨l, w.space.tree, w.feedOf f l, f.scan⟩ s) (hr : SameRecords w₂ a') : ∃ w₃,
    dropLoop outer w₂ = .ok () w₃ ∧ w₃.space.tree = w.space.tree ∧ Holding w₃ k bs ∧ w₃.rotation = none
      ∧ Afoot stray w₃ { f with scan := s.scan, loops := outer } a' := by
  obtain ⟨w₃, hdrop⟩ : ∃ w₃, dropLoop outer w₂ = .ok () w₃ :=
    ⟨_, (Action.bind_of_ok ((Walk.modifyFrame_eq_ok (u := ())).mpr rfl)).trans (Walk.popLevel_eq_ok.mpr rfl)⟩
  refine ⟨w₃, hdrop, ?_⟩
  obtain rfl := Walk.dropLoop_ok ht hdrop
  have htree : w₂.space.tree = w.space.tree := ht.tree.trans he.tree
  have hafoot := h.atLoop.afoot
  exact ⟨htree, (hold.of_eq ht.sink).pop rfl, ht.rotation.trans h.rotation,
    hafoot.of_eq rfl ⟨rfl, rfl, rfl⟩ hafoot.idle ⟨hr.main, hr.secondary⟩ (by rw [htree])⟩

/-- The loop ends, and the loop around it has to be asked, or the walk goes on elsewhere. -/
theorem ends (hold : Holding w k bs) (ht : turn f l w = .ok (false, l') w₂) : ∃ s w₃ a',
    Walk.Turned w f [] s w₂ ∧ Ends ⟨l, w.space.tree, w.feedOf f l, f.scan⟩ s ∧ dropLoop outer w₂ = .ok () w₃
      ∧ Holding w₃ k bs ∧ w₃.rotation = none ∧ Afoot stray w₃ { f with scan := s.scan, loops := outer } a'
      ∧ if cascades w₃.space.tree outer p then Leads stray a [] a' ∧ a'.ahead = []
          ∧ Surrounded outputs w₃.space.tree 0 q outer s.scan a'.outer
        else ∃ a', Leads stray a [] a' ∧ Tracks outputs stray w₃ a' := by
  have hat := h.atLoop
  obtain ⟨s, a', rfl, hturned, hnext, hturn, hr, hkey, hahead, houter⟩ := hat.turn_ok ht
  have he : Ends _ s := hnext
  have hstep := h.step_eq
  rw [hturn] at hstep
  obtain ⟨w₃, hdrop, htree, hold₃, hrot, hafoot⟩ := h.exists_dropped hold hturned he hr
  refine ⟨s, w₃, a', hturned, he, hdrop, hold₃, hrot, hafoot, ?_⟩
  have hscan := he.scan
  rw [Loop.Turn.behind] at hscan
  dsimp only at hscan
  have hanchor := h.atEnd.anchor
  cases hsibling : w.space.tree.nextSibling? l.anchor with
  | some next =>
    -- the walk goes on behind the loop
    rw [hsibling] at hscan
    have hcas : ¬ cascades w₃.space.tree outer p = true := by
      intro hc
      have hnone := (Walk.cascades_iff.mp hc).2.1
      rw [htree, ← hanchor, hsibling] at hnone
      cases hnone
    rw [if_neg hcas]
    have hbehind : ¬ behind = [] := by
      rw [← hat.ahead.eq_nil_iff, hat.wellFormed.followingSiblings_nextSibling? hsibling]
      exact List.cons_ne_nil _ _
    rw [← List.isEmpty_iff] at hbehind
    simp only [hbehind] at hstep
    have hframes := hafoot.frames
    rw [hscan] at hframes
    exact ⟨a', .of_step hstep, hat.tracks_behind hsibling htree hframes hrot hafoot.records hkey hahead houter⟩
  | none =>
    rw [hsibling] at hscan
    have hempty : behind = [] := by
      have hbehind := aheadAt_nextSibling hat.wellFormed hat.parent (.of_mirrorsAll hat.ahead)
      rw [hsibling] at hbehind
      exact hbehind
    have hsur : Surrounded outputs w₃.space.tree 0 q outer s.scan around := by
      rw [htree, hscan]
      exact hat.surrounded
    rw [hempty] at hstep hahead
    have hlast := h.ends_last hafoot htree hrot hsur (hanchor ▸ hsibling) houter hahead hstep
    by_cases hcas : cascades w₃.space.tree outer p = true
    · rw [if_pos hcas] at hlast ⊢
      exact ⟨hlast, hahead, houter ▸ hsur⟩
    · rw [if_neg hcas] at hlast ⊢
      exact hlast

end AtRunEnd

/-! ## The end of a run -/

section

variable (h : Closing outputs stray w f p key parents a) (hold : Holding w k bs)

include h hold

/-- At the end of a run of a loop, its level is completed, and it is asked. -/
theorem Closing.exists_atRunEnd (hname : w.space.tree.name p = "repeat") (hloops : f.loops = l :: outer) :
    ∃ w₁ q around body behind,
      (if (w.space.tree.computed p).seq = some 0 then Walk.pushLevel else Walk.completeLevel o) w = .ok () w₁
        ∧ WrittenUp w w₁ ∧ AtRunEnd outputs stray w₁ f p q l outer around body behind a ∧ Holding w₁ k bs := by
  obtain ⟨w₁, hlevel, hold₁, hw₁⟩ := hold.level (o := o) (w.space.tree.computed p).seq
  obtain ⟨hup, -⟩ := Walk.writtenUp h.ended.wellFormed hlevel
  obtain ⟨q, hat⟩ := h.ended.atLoopEnd hname hloops hup
  have htree : w₁.space.tree = w.space.tree := by rw [hw₁]
  have hsur := h.surrounded
  rw [hloops] at hsur
  generalize hscan : f.scan = scan at hsur
  generalize hout : a.outer = outers at hsur
  cases hsur with
  | group _ _ hitems =>
    rw [hitems] at hname
    exact absurd hname (by decide)
  | @loop _ q' _ _ _ around body behind houter hparent _ hruns hahead =>
    have hq : q' = q := by
      have hp := hat.parent
      rw [htree, hparent] at hp
      exact Option.some.inj hp
    subst hq
    have hafoot : Afoot stray w₁ f { a with outer := around } :=
      h.afoot.of_eq hat.frames (.refl f) hat.idle
        ⟨by rw [hw₁]; exact h.afoot.records.main, by rw [hw₁]; exact h.afoot.records.secondary⟩ (by rw [htree])
    refine ⟨w₁, q', around, body, behind, hlevel, hup, ⟨hat, ⟨hat.wellFormed, hat.isRoot, hafoot, ?_, ?_, ?_, ?_, ?_⟩, hout,
      h.ahead, ?_⟩, hold₁⟩
    · rw [hat.anchor]
      exact hat.parent
    · rw [hat.anchor]
      exact hat.name
    · rw [htree, hscan]
      exact houter
    · rw [htree, hat.anchor]
      exact hruns
    · rw [htree, hat.anchor]
      exact hahead
    · rw [hw₁]
      exact h.rotation

end

/-- At the end of a run, the walk and the agenda ask the same loops. -/
theorem Closing.closes (h : Closing outputs stray w f p key parents a) (hold : Holding w k bs) :
    Closes outputs stray k bs a (closeLoops o parents w) := by
  -- outwards, and the run that has ended is another one at each parent
  induction parents generalizing w f p key a with
  | nil => cases h.ended.parents
  | cons parent parents ih =>
    obtain ⟨rfl, -⟩ := List.cons.inj h.ended.parents
    by_cases hname : w.space.tree.name parent = "repeat"
    · cases hloops : f.loops with
      | nil =>
        -- the template is a loop, which has not been entered
        obtain ⟨w₁, hlevel, -, hw₁⟩ := hold.level (o := o) (w.space.tree.computed parent).seq
        have hframes : w₁.frames = [f] := by
          rw [hw₁]
          exact h.ended.frames
        rw [Walk.closeLoops_of_level hname hlevel, Walk.askLoop_of_nil hframes hloops, strayLoop, Action.get_bind]
        obtain ⟨rfl, hout⟩ := (hloops ▸ h.surrounded).top_of_repeat hname
        refine ⟨[], .fails ?_⟩
        unfold Agenda.step
        rw [h.ahead, hout, h.afoot.root.mp hname]
        rfl
      | cons l outer =>
        obtain ⟨w₁, q, around, body, behind, hlevel, hup, hat, hold₁⟩ := h.exists_atRunEnd (o := o) hold hname hloops
        rw [Walk.closeLoops_of_level hname hlevel]
        cases ht : turn f l w₁ with
        | error e w₂ =>
          rw [Walk.askLoop_of_error hat.atEnd.frames hloops ht]
          exact ⟨[], .fails (hat.fails ht)⟩
        | ok result w₂ =>
          obtain ⟨more, l'⟩ := result
          cases more with
          | true =>
            obtain ⟨w₃, hw₃, hrest⟩ := hat.goesOn hold₁ ht
            rw [Walk.askLoop_of_goesOn hat.atEnd.frames hloops ht, hw₃]
            exact hrest
          | false =>
            obtain ⟨s, w₃, a', hturned, he, hdrop, hold₃, hrot, hafoot, hrest⟩ := hat.ends hold₁ ht
            rw [Walk.askLoop_of_ends hat.atEnd.frames hloops ht hdrop]
            by_cases hcas : cascades w₃.space.tree outer parent = true
            · -- nothing stands behind the loop, and the run around it has ended, too
              rw [if_pos hcas] at hrest ⊢
              obtain ⟨hl, hahead, hsur⟩ := hrest
              exact .of_leads hl (ih ⟨h.ended.outward hup hat.atEnd hturned he hdrop hcas, hafoot, hsur, hahead, hrot⟩ hold₃)
            · rw [if_neg hcas] at hrest ⊢
              obtain ⟨a₂, hl, htracks⟩ := hrest
              exact ⟨a₂, hl, htracks, hold₃, hrot⟩
    · -- the run is one of a group, or of the template
      rw [Walk.closeLoops_of_ne hname]
      have hends (hout : a.outer = []) : a.step stray = .ends := by
        obtain ⟨rfl, -⟩ := (hout ▸ h.surrounded).top_of_nil
        have hstray : ¬ stray = true := fun hs => hname (h.afoot.root.mpr hs)
        unfold Agenda.step
        rw [h.ahead, hout]
        exact if_neg hstray
      obtain ⟨a', hl, htracks⟩ := exists_tracks_outward h.afoot h.surrounded h.ahead h.rotation
        (fun hrepeat => absurd hrepeat hname) hends
      exact ⟨a', hl, htracks, hold, h.rotation⟩

end Stencil.Meaning
