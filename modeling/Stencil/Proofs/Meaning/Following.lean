/-
  Walks follow agendas to their end.

  Between two rounds, a walk that follows an agenda has an open sink that holds what has been written so far, or the
  output is about to be changed (`Ready`).  A round takes some steps of the agenda, and writes what these write, or it
  hands the open sink out (`Tracks.round`).

  So a walk that ends has come to the end of its agenda, or the agenda fails where the walk does; and what the walk has
  handed out is what the agenda writes, all of it, in order (`Tracks.ends`).
-/
import Stencil.Proofs.Meaning.Closing
import Stencil.Proofs.Walk.Ends

set_option autoImplicit false

namespace Stencil.Meaning

open Stencil.Walk (Holding Coherent Reached Setup Visiting IsRoot takeRun closeLoops)

variable {outputs stray : Bool} {p n : NodeId} {a a' : Agenda} {w w₁ w₂ w' : Walk} {f g : Frame} {r : Run} {o : Options}
  {k k' : Sink} {bs cs : Bytes} {even : Prop} {roots : List NodeId} {s : Setup} {u : Unit}

/-! ## Between two rounds -/

/-- How a walk stands to its output: what has been written to the sink `k` are the bytes `bs`, or that sink has still
    to be opened. -/
inductive Ready (outputs : Bool) (w : Walk) (k : Sink) : Bytes → Prop
  | holding {bs : Bytes} (hold : Holding w k bs) (rotation : w.rotation = none) : Ready outputs w k bs
  | due {n : NodeId} (rotation : w.rotation = some n) (out : outputs = true) : Ready outputs w k []

/-- The only document that is walked is the main one. -/
theorem roots_eq (h : Coherent even w roots) (hf : w.frames = [f]) (ht : takeRun f = some (r, g)) (hm : IsMain g) :
    roots = [0] := by
  have hs := h.stack
  rw [hf] at hs
  obtain ⟨root, rs, rfl⟩ := hs.roots_cons
  obtain ⟨hsame, -⟩ := h.visiting hf ht
  cases hs with
  | main _ _ hfound =>
    rw [← hsame.rootOf, Walk.rootOf, hm.owned, hm.source] at hfound
    rw [Option.some.inj hfound]
  | «import» _ hne => exact absurd rfl hne

/-- What changes below one of the nodes beside the run does not matter for the run. -/
theorem Along.patched {t t' : Tree} {loops : List Loop} {scan : List Position} (hwf : t.WellFormed)
    (hroot : IsRoot t 0) (h : Along outputs t p r loops scan a) (hp : t.parent? n = some p)
    (hpat : Patched outputs t n t') : Along outputs t' p r loops scan a where
  surrounded := h.surrounded.relisted hwf hroot.parent? (hpat.relisted hwf hp)
  first := (hpat.sibling hwf hp h.first).1
  key := h.key
  ahead := h.ahead.patched hwf hp hpat

/-- The change of output that is due does not change what is left to do. -/
theorem Tracks.rotated (h : Tracks outputs stray w a) (hc : Coherent even w roots) (hready : Ready outputs w k bs)
    (hr : Walk.rotate o w = .ok u w₁) : Tracks outputs stray w₁ a ∧ w₁.rotation = none
      ∧ ∃ k', Holding w₁ k' bs ∧ (outputs = false → k' = k) := by
  cases hready with
  | holding hold hrot =>
    rw [Walk.rotate, Action.get_bind_eq_ok] at hr
    simp only [hrot] at hr
    obtain ⟨-, rfl⟩ := Action.pure_eq_ok.mp hr
    exact ⟨h, hrot, k, hold, fun _ => rfl⟩
  | @due n hrot hout =>
    cases h with
    | finished _ hnone =>
      rw [hrot] at hnone
      cases hnone
    | @running f g r p hf ht hafoot halong hbeside =>
      -- the `writer` stands beside the run, so what is opened below it does not matter for what is ahead
      obtain rfl := roots_eq hc hf ht hafoot.main
      have hwf := hc.wellFormed
      have hp := hbeside n hrot
      have hroot : IsRoot w.space.tree 0 := hc.stack.isRoot List.mem_cons_self
      obtain ⟨-, root, hmem, hw⟩ := hc.rotation n hrot
      obtain rfl := List.mem_singleton.mp hmem
      obtain ⟨-, hframes, hnone⟩ := hc.rotate hr
      obtain ⟨_, _, _, _, -, ho⟩ := (hc.rotate_ok hr).resolve_left fun hsame => by
        rw [hrot] at hsame
        cases hsame.2
      have hrest := ho.rest
      rw [Walk.rotate, Action.get_bind_eq_ok] at hr
      simp only [hrot, hf] at hr
      rw [Action.set_bind_eq_ok] at hr
      obtain ⟨hpat, k', hold⟩ : Patched outputs w.space.tree n w₁.space.tree ∧ ∃ k', Holding w₁ k' [] :=
        patched_openSink (w := { w with frames := [f], rotation := none }) hwf hw hp
          (halong.surrounded.placed hroot.parent?) hr
      refine ⟨.running (hframes.trans hf) ht ?_ (halong.patched hwf hroot hp hpat) fun m hm => ?_, hnone, k', hold,
        fun hfalse => ?_⟩
      · refine hafoot.of_eq rfl (.refl g) hafoot.idle ?_ (hpat.toBeneath.name_root hroot)
        rw [hrest]
        exact ⟨hafoot.records.main, hafoot.records.secondary⟩
      · rw [hnone] at hm
        cases hm
      · rw [hout] at hfalse
        cases hfalse

/-! ## Rounds -/

/-- What a round comes to in a walk that follows an agenda. -/
inductive Rounded (outputs stray : Bool) (k : Sink) (bs : Bytes) (a : Agenda) :
    EStateM.Result Error Walk Walk.Progress → Prop
  | fails {e : Error} {w' : Walk} {cs : Bytes} (fails : Outcome stray a cs false) :
      Rounded outputs stray k bs a (.error e w')
  | goesOn {w' : Walk} {k' : Sink} {cs : Bytes} {a' : Agenda} (leads : Leads stray a cs a')
      (tracks : Tracks outputs stray w' a') (ready : Ready outputs w' k' (bs ++ cs)) (same : outputs = false → k' = k) :
      Rounded outputs stray k bs a (.ok .goOn w')
  | yields {w' : Walk} {s k' : Sink} {a' : Agenda} (out : outputs = true) (leads : Leads stray a [] a')
      (tracks : Tracks outputs stray w' a') (bytes : s.toBytes = bs) (ready : Ready outputs w' k' []) :
      Rounded outputs stray k bs a (.ok (.yield s) w')
  /-- The last sink is handed out. -/
  | ends {w₁ : Walk} {s : Sink} (ends : a.step stray = .ends) (bytes : s.toBytes = bs) (frames : w₁.frames = [])
      (same : outputs = false → SameSink k s) :
      Rounded outputs stray k bs a (.ok (.yield s.flush) (Walk.keep s { w₁ with sink := none }))

/-- Where the output does not change, the sink is the one that has been open before. -/
theorem Rounded.of_sink {x : EStateM.Result Error Walk Walk.Progress} (h : Rounded outputs stray k' bs a x)
    (hk : outputs = false → k' = k) : Rounded outputs stray k bs a x := by
  cases h with
  | fails hfails => exact .fails hfails
  | goesOn hl ht hready hsame => exact .goesOn hl ht hready fun hf => (hsame hf).trans (hk hf)
  | yields hout hl ht hbytes hready => exact .yields hout hl ht hbytes hready
  | ends hends hbytes hframes hsame => exact .ends hends hbytes hframes fun hf => hk hf ▸ hsame hf

section

variable (hold : Holding w k bs) (hrot : w.rotation = none)

include hold

/-- A walk in which no document is left hands out the open sink. -/
theorem rounded_finish (hf : w.frames = []) (hends : a.step stray = .ends) :
    Rounded outputs stray k bs a (Walk.finish w) := by
  obtain ⟨s, hs, -, hbytes, hsame⟩ := hold
  rw [Walk.finish, Action.get_bind]
  simp only [hs]
  exact .ends hends hbytes hf fun _ => hsame

include hrot

/-- A walk at the end of its template leaves it. -/
theorem rounded_leave (hf : w.frames = [f]) (hends : a.step stray = .ends) :
    Rounded outputs stray k bs a ((do Walk.leave o; return .goOn : Action Walk Walk.Progress) w) := by
  obtain ⟨w', hleave, hframes, hrotation, hold'⟩ := hold.leave (o := o) hf
  rw [Action.bind_of_ok hleave]
  have hnone : w'.rotation = none := hrotation.trans hrot
  refine .goesOn (.refl a) (.finished (.inl hframes) hnone hends) (.holding ?_ hnone) fun _ => rfl
  rw [List.append_nil]
  exact hold'

variable (hc : Coherent even w roots) (hf : w.frames = [f]) (ht : takeRun f = some (r, g))
  (hafoot : Afoot stray { w with frames := [g] } g a) (halong : Along outputs w.space.tree p r g.loops g.scan a)

include hc hf ht hafoot halong

/-- At the end of a run the loops around it are asked. -/
theorem rounded_closeLoops (hn : r.next = none) : Rounded outputs stray k bs a ((do
    closeLoops o (w.space.tree.ancestors r.first)
    return .goOn : Action Walk Walk.Progress) { w with frames := [g] }) := by
  obtain rfl := roots_eq hc hf ht hafoot.main
  obtain ⟨q, hended⟩ := hc.runEnded hf ht
  obtain rfl : q = p := by
    have hparents := hended.parents
    rw [hc.wellFormed.ancestors_of_parent halong.first] at hparents
    exact (List.cons.inj hparents).1.symm
  have hahead := halong.ahead
  rw [hn] at hahead
  have hclosing : Closing outputs stray { w with frames := [g] } g q r.key (w.space.tree.ancestors r.first) a :=
    ⟨hended, hafoot, halong.surrounded, hahead, hrot⟩
  have hcloses := hclosing.closes (o := o) (hold.of_eq rfl)
  cases hx : closeLoops o (w.space.tree.ancestors r.first) { w with frames := [g] } with
  | error e w' =>
    rw [hx] at hcloses
    obtain ⟨cs, hcs⟩ := hcloses
    rw [Action.bind_of_error hx]
    exact .fails hcs
  | ok u w' =>
    rw [hx] at hcloses
    obtain ⟨a', hl, htracks, hold', hrot'⟩ := hcloses
    rw [Action.bind_of_ok hx]
    refine .goesOn hl htracks (.holding ?_ hrot') fun _ => rfl
    rw [List.append_nil]
    exact hold'

/-- In a run the next node is visited. -/
theorem rounded_advance (hn : r.next = some n) :
    Rounded outputs stray k bs a (Walk.advance o g r n { w with frames := [g] }) := by
  obtain rfl := roots_eq hc hf ht hafoot.main
  obtain ⟨-, -, q, hrunning, hidle⟩ := hc.visiting hf ht
  obtain rfl : q = p := by
    have hq := hrunning.first
    rw [halong.first] at hq
    exact (Option.some.inj hq).symm
  have hstack := hc.stack
  rw [hf] at hstack
  obtain ⟨hroot, -, hfresh, -⟩ := hstack.head
  have happroaching : Approaching outputs stray { w with frames := [g] } g q r n a :=
    ⟨⟨hc.wellFormed, rfl, hidle, hroot, hfresh, hrunning, hn⟩, hafoot, halong, hrot⟩
  have hproceeds := happroaching.visit (o := o) (hold.of_eq rfl)
  rw [Walk.advance]
  cases hv : Walk.visit o g r.key n { w with frames := [g] } with
  | error e w' =>
    rw [hv] at hproceeds
    obtain ⟨cs, hcs⟩ := hproceeds
    have hlocated : Action.locating (fun w => w.space.tree.describe n) (Walk.visit o g r.key n)
        { w with frames := [g] } = .error (e.locate (w'.space.tree.describe n)) w' := by
      unfold Action.locating
      rw [hv]
    rw [Action.bind_of_error hlocated]
    exact .fails hcs
  | ok v w₂ =>
    rw [hv] at hproceeds
    obtain ⟨w', cs, a', hresume, hl, htracks, hrest⟩ := hproceeds
    rw [Action.bind_of_ok (Action.locating_eq_ok.mpr hv), Action.bind_of_ok hresume]
    cases v with
    | done =>
      obtain ⟨hold', hrot'⟩ := hrest
      exact .goesOn hl htracks (.holding hold' hrot') fun _ => rfl
    | yield s =>
      obtain ⟨hout, rfl, hbytes, hrot'⟩ := hrest
      exact .yields hout hl htracks hbytes (.due (k := k) hrot' hout)
    | enter e => exact hrest.elim

end

/-- A round of a walk that follows an agenda. -/
theorem Tracks.round (h : Tracks outputs stray w a) (hc : Coherent even w roots) (hready : Ready outputs w k bs)
    (hr : Walk.rotate o w = .ok u w₁) : Rounded outputs stray k bs a (Walk.round o w) := by
  obtain ⟨htracks, hrot, k', hold, hsame⟩ := h.rotated hc hready hr
  obtain ⟨hc₁, -, -⟩ := hc.rotate hr
  refine Rounded.of_sink ?_ hsame
  cases htracks with
  | finished hframes _ hends =>
    rcases hframes with hf | ⟨f, hf, ht⟩
    · have hround : Walk.round o w = Walk.finish w₁ := by
        rw [Walk.round, Action.bind_of_ok hr, Action.get_bind]
        simp only [hf]
      rw [hround]
      exact rounded_finish hold hf hends
    · have hround : Walk.round o w = (do Walk.leave o; return .goOn : Action Walk Walk.Progress) w₁ := by
        rw [Walk.round, Action.bind_of_ok hr, Action.get_bind]
        simp only [hf, ht]
      rw [hround]
      exact rounded_leave hold hrot hf hends
  | @running f g r p hf ht hafoot halong =>
    have hround := Walk.round_of_takesUp ⟨w₁, f, [], hr, hf, ht, rfl⟩
    cases hn : r.next with
    | some n =>
      rw [hn] at hround
      rw [hround]
      exact rounded_advance hold hrot hc₁ hf ht hafoot halong hn
    | none =>
      rw [hn] at hround
      rw [hround]
      exact rounded_closeLoops (w := w₁) hold hrot hc₁ hf ht hafoot halong hn

/-! ## Whole walks -/

/-- Behind the last sink, a walk is over. -/
theorem over_of_ends {ss : List Sink} {e : Option Error} (hf : w.frames = []) (hs : w.sink = none)
    (h : Walk.Ends o w ss e w') : ss = [] ∧ e = none ∧ w' = w := by
  have hround : Walk.round o w = .ok .finished w := by
    rw [Walk.round_of_no_frames hf, Walk.finish, Action.get_bind]
    simp only [hs]
    rfl
  cases h with
  | finished h =>
    rw [hround] at h
    cases h
    exact ⟨rfl, rfl, rfl⟩
  | failed h => rw [hround] at h; cases h
  | goOn h => rw [hround] at h; cases h
  | yield h => rw [hround] at h; cases h

/-- What a walk that is over has handed out: sinks with some bytes, and if the output does not change, one sink only,
    the one that has been open before. -/
structure Written (outputs : Bool) (k : Sink) (bs : Bytes) (ss : List Sink) (w' : Walk) : Prop where
  bytes : (ss.map Sink.toBytes).flatten = bs
  sole : outputs = false → ∃ s w, ss = [s.flush] ∧ SameSink k s ∧ w.sink = none ∧ w' = Walk.keep s w

/-- What a walk that follows an agenda hands out is what the agenda writes; and it fails if the agenda does. -/
theorem Tracks.ends {ss : List Sink} {e : Option Error} (hreached : Reached o s w)
    (hrotate : ∀ w, Reached o s w → ∃ w', Walk.rotate o w = .ok () w') (htracks : Tracks outputs stray w a)
    (hready : Ready outputs w k bs) (h : Walk.Ends o w ss e w') :
    ∃ cs, Outcome stray a cs e.isNone ∧ (e = none → Written outputs k (bs ++ cs) ss w') := by
  have hrounded : ∀ {w a k bs}, Reached o s w → Tracks outputs stray w a → Ready outputs w k bs →
      Rounded outputs stray k bs a (Walk.round o w) := by
    intro w a k bs hreached htracks hready
    obtain ⟨_, hc⟩ := hreached.coherent
    obtain ⟨_, hr⟩ := hrotate w hreached
    exact htracks.round hc hready hr
  -- the rest of the walk may follow any agenda, behind any bytes
  induction h generalizing a k bs with
  | finished h =>
    have hround := hrounded hreached htracks hready
    rw [h] at hround
    cases hround
  | failed h =>
    have hround := hrounded hreached htracks hready
    rw [h] at hround
    cases hround with
    | fails hfails => exact ⟨_, hfails, nofun⟩
  | goOn h _ ih =>
    have hround := hrounded hreached htracks hready
    rw [h] at hround
    cases hround with
    | @goesOn _ k' cs a' hl htracks' hready' hsame =>
      obtain ⟨ds, hds, hwritten⟩ := ih (.round hreached h) htracks' hready'
      refine ⟨cs ++ ds, hl _ _ hds, fun he => ?_⟩
      obtain ⟨hbytes, hsole⟩ := hwritten he
      refine ⟨by rw [hbytes, List.append_assoc], fun hfalse => ?_⟩
      rw [← hsame hfalse]
      exact hsole hfalse
  | yield h further ih =>
    have hround := hrounded hreached htracks hready
    rw [h] at hround
    cases hround with
    | yields hout hl htracks' hbytes hready' =>
      obtain ⟨ds, hds, hwritten⟩ := ih (.round hreached h) htracks' hready'
      refine ⟨ds, hl _ _ hds, fun he => ⟨?_, fun hfalse => ?_⟩⟩
      · rw [List.map_cons, List.flatten_cons, hbytes, (hwritten he).bytes, List.nil_append]
      · rw [hout] at hfalse
        cases hfalse
    | @ends w₁ t hends hbytes hframes hsame =>
      obtain ⟨rfl, rfl, rfl⟩ := over_of_ends (by rw [Walk.keep_rest]; exact hframes) (by rw [Walk.keep_rest]) further
      refine ⟨[], .ends hends, fun _ => ⟨?_, fun hfalse => ⟨t, _, rfl, hsame hfalse, rfl, rfl⟩⟩⟩
      rw [List.map_cons, List.map_nil, List.flatten_cons, List.flatten_nil, Sink.toBytes_flush, hbytes]

/-! ## Reached states -/

section

variable {w₀ : Walk} {a₀ : Agenda} (h₀ : Walk.start o ⟨0, s.main.path⟩ (Walk.begin s) = .ok () w₀)
  (htracks : Tracks outputs stray w₀ a₀) (hready : Ready outputs w₀ k bs)

include h₀ htracks hready

/-- A walk that follows an agenda when it begins goes on to do so. -/
theorem Tracks.reached (h : Reached o s w) :
    w.frames = [] ∨ ∃ a k bs, Tracks outputs stray w a ∧ Ready outputs w k bs := by
  induction h with
  | start h =>
    rw [h₀] at h
    cases h
    exact .inr ⟨a₀, k, bs, htracks, hready⟩
  | @round w w' progress before h ih =>
    rcases ih with hf | ⟨a, k, bs, htracks, hready⟩
    · exact .inl (Walk.frames_of_round hf h)
    obtain ⟨_, hc⟩ := before.coherent
    obtain ⟨_, hr, -⟩ := Walk.round_ok h
    have hround := htracks.round hc hready hr
    rw [h] at hround
    cases hround with
    | goesOn _ htracks' hready' => exact .inr ⟨_, _, _, htracks', hready'⟩
    | yields _ _ htracks' _ hready' => exact .inr ⟨_, _, _, htracks', hready'⟩
    | ends _ _ hframes =>
      rw [Walk.keep_rest]
      exact .inl hframes

/-- Such a walk reads no document on demand. -/
theorem Tracks.undemanding : Walk.Undemanding o s := by
  intro w hw g r w₁ n htakes hn hname
  obtain ⟨w₂, f, more, hr, hf, ht, rfl⟩ := htakes
  obtain ⟨_, hc⟩ := hw.coherent
  obtain ⟨-, hframes, -⟩ := hc.rotate hr
  rcases Tracks.reached h₀ htracks hready hw with hnone | ⟨a, k, bs, htracks', hready'⟩
  · rw [hframes, hnone] at hf
    cases hf
  obtain ⟨hafter, -⟩ := htracks'.rotated hc hready' hr
  cases hafter with
  | finished hover =>
    rw [hf] at hover
    rcases hover with hover | ⟨f', hover, hnone⟩
    · cases hover
    · cases hover
      rw [ht] at hnone
      cases hnone
  | running hf' ht' _ halong =>
    rw [hf] at hf'
    cases hf'
    rw [ht] at ht'
    cases ht'
    have hahead := halong.ahead
    rw [hn] at hahead
    rcases hahead.2.cases with ⟨hnop, -⟩ | ⟨_, _, _, _, -, -, hm, -⟩
    · exact absurd (hnop.symm.trans hname) (by decide)
    · exact absurd hname hm.name_ne_import

end

/-- Where the output does not change, no change of output can fail. -/
theorem Tracks.exists_rotate {w₀ : Walk} {a₀ : Agenda}
    (h₀ : Walk.start o ⟨0, s.main.path⟩ (Walk.begin s) = .ok () w₀) (htracks : Tracks false stray w₀ a₀)
    (hready : Ready false w₀ k bs) (h : Reached o s w) : ∃ w', Walk.rotate o w = .ok () w' := by
  refine ⟨w, ?_⟩
  rw [Walk.rotate, Action.get_bind]
  rcases Tracks.reached h₀ htracks hready h with hf | ⟨a, k, bs, -, hready'⟩
  · rw [hf]
    cases w.rotation <;> rfl
  · cases hready' with
    | holding _ hrot =>
      rw [hrot]
      rfl
    | due _ hout => cases hout

end Stencil.Meaning
