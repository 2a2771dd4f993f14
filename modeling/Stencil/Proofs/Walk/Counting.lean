/-
  A field that counts the runs of a loop.

  A field in the body of a loop, whose text is an integer that grows, counts the runs: in the first run it is written as
  the integer that it holds when the loop is entered, in the second one as the next integer, and so on.

    1. A round that comes to the field while an output is open writes the integer that the field holds, and the field
       holds the next one (`Emits.counts`).  Every other round leaves the field alone (`Coherent.amid_round`).
    2. In each run the walk comes to the field exactly once.  So as many texts have been written as runs have begun, or
       one less, and the field holds the integer behind them (`Tally`).
    3. When a loop that unrolls goes on, it copies the body with the integer in it, and from then on the walk comes to
       the copy of the field (`Tally.again`).

  Where no output is open, nothing is written and the field does not count.
-/
import Stencil.Proofs.Field.Increment
import Stencil.Proofs.Walk.OneByOne
import Stencil.Proofs.Walk.Once

set_option autoImplicit false

namespace Stencil.Walk

open Stencil.Field (Grows Increments Tells Vacant WorkedOut)
open Loop.Turn (Continues Advanced)

variable {o : Options} {s : Setup} {w w₁ w₂ w₃ w' : Walk} {f g : Frame} {r : Run} {l l' k : Loop} {outer : List Loop}
  {x y n : NodeId} {way : List NodeId} {due runs : Nat} {m : Int} {out : Sink} {text : String} {texts : List String}
  {progress : Progress} {roots : List NodeId} {even : Prop}

/-! ## Visits to the field -/

/-- In the round behind the state `w`, the walk comes to the field `x`, for which the records have no value, while the
    sink `out` is open; it does so in the state `w₁`. -/
def Meets (o : Options) (w : Walk) (x : NodeId) (out : Sink) (w₁ : Walk) : Prop :=
  ∃ g r, TakesUp o w g r w₁ ∧ r.next = some x ∧ w₁.sink = some out
    ∧ w₁.recordValue g (w₁.space.tree.keyPath r.key x) x = ""

/-- What the text of the field is worked out from then: the field has got an empty value. -/
def unvalued (w : Walk) (x : NodeId) : Workspace := { w.space with tree := putValue w.space.tree x "" }

/-- The round behind `w` writes a text to the open sink, as that of the field `x`. -/
def Emits (o : Options) (w : Walk) (x : NodeId) (text : String) (w' : Walk) : Prop :=
  ∃ out w₁ progress space spot l, Meets o w x out w₁ ∧ Walk.round o w = .ok progress w'
    ∧ WorkedOut o (out.flush.reader w₁.files) x none (w₁.unvalued x) text space spot l
    ∧ w'.sink = some (out.flush.emit spot l.bytes)

theorem Meets.comesTo (h : Meets o w x out w₁) : ComesTo o w x := by
  obtain ⟨g, r, htakes, hn, -⟩ := h
  exact ⟨g, r, w₁, htakes, hn⟩

/-- What a round does in which the walk comes to the field. -/
theorem Meets.round (h : Meets o w x out w₁) (hname : w₁.space.tree.name x = "item")
    (hr : Walk.round o w = .ok progress w') :
    ∃ j, Job.setData o w₁.files x ⟨w₁.unvalued x, out⟩ = .ok () j ∧ w'.space = j.space ∧ w'.sink = some j.sink := by
  obtain ⟨g, r, htakes, hn, hout, hvalue⟩ := h
  obtain ⟨⟨j, hj, hkept⟩, -⟩ := htakes.round_item hn hname hout hr
  rw [hvalue] at hj
  exact ⟨j, hj, hkept⟩

section

variable (hc : Coherent even w roots) (h : Amid w outer l x way due) (hx : Increments w.space.tree x m)

include hc h hx

/-- The field is where it was, and holds what it held. -/
theorem Coherent.meets (hm : Meets o w x out w₁) :
    w₁.space.tree.WellFormed ∧ w₁.space.tree.name x = "item" ∧ (∃ p, w₁.space.tree.parent? x = some p)
      ∧ Increments w₁.space.tree x m := by
  obtain ⟨g, r, ⟨w₂, f, more, hrot, -, -, rfl⟩, -⟩ := hm
  obtain ⟨hc₂, -, -⟩ := hc.rotate hrot
  obtain ⟨h₂, hu⟩ := hc.amid_rotate h hrot
  obtain ⟨root, -, hhangs, hname⟩ := h₂.hangs hc₂
  obtain ⟨p, hp, -⟩ := hhangs.parent
  exact ⟨hc₂.wellFormed, hname, ⟨p, hp⟩, hx.congr hc.wellFormed hc₂.wellFormed fun y hy => (hu y hy).2.2⟩

/-- The text of the field is the integer that it holds. -/
theorem Coherent.resolves (hm : Meets o w x out w₁) (hlt : m < lastCount) :
    ∃ text space, Field.value o (out.flush.reader w₁.files) x (w₁.unvalued x) = .ok text space ∧ Tells text m := by
  obtain ⟨hwf, -, ⟨p, hp⟩, hx₁⟩ := hc.meets h hx hm
  obtain ⟨d, hv, hd⟩ : ∃ d, Vacant (w₁.unvalued x).tree x d ∧ Grows (w₁.unvalued x).tree d m := hx₁.putValue hwf hp
  obtain ⟨text, htells, htext⟩ := Field.evaluate_of_grows (o := o) (x := x) hd hlt
  exact ⟨text, _, (Field.value_of_vacant hv).trans htext, htells⟩

/-- A round that comes to the field while an output is open, and goes well, writes the integer that the field holds,
    and the field holds the next one. -/
theorem Coherent.emits (hm : Meets o w x out w₁) (hr : Walk.round o w = .ok progress w') :
    ∃ text space spot l, WorkedOut o (out.flush.reader w₁.files) x none (w₁.unvalued x) text space spot l
      ∧ w'.sink = some (out.flush.emit spot l.bytes) ∧ Tells text m ∧ Increments w'.space.tree x (m + 1) := by
  obtain ⟨hwf, hname, ⟨p, hp⟩, hx₁⟩ := hc.meets h hx hm
  obtain ⟨d, hv, hd⟩ := hx₁.putValue hwf hp
  obtain ⟨j, hj, hspace, hsink⟩ := hm.round hname hr
  have hput : Tree.Refreshed w₁.space.tree (w₁.unvalued x).tree :=
    refreshed_putValue hwf hp (by rw [hname]; decide)
  have heval : (w₁.unvalued x).tree.attr? x "eval" = none := by
    unfold Tree.attr?
    rw [hput.attrs x (hwf.live_of_parent hp).1]
    exact hx₁.eval
  obtain ⟨text, space, spot, l, htells, hw, hemit, hnext⟩ :=
    Job.setData_of_vacant (j := ⟨w₁.unvalued x, out⟩) hput.wellFormed heval hv hd hj
  exact ⟨text, space, spot, l, hw, hsink.trans (congrArg some hemit), htells, hspace ▸ hnext⟩

theorem Emits.counts (he : Emits o w x text w') : Tells text m ∧ Increments w'.space.tree x (m + 1) := by
  obtain ⟨out, w₁, progress, space, spot, l, hm, hr, hw, -⟩ := he
  obtain ⟨text', space', spot', l', hw', -, htells, hnext⟩ := hc.emits h hx hm hr
  cases hw.value.symm.trans hw'.value
  exact ⟨htells, hnext⟩

end

theorem Emits.exists_round (he : Emits o w x text w') :
    ComesTo o w x ∧ ∃ progress, Walk.round o w = .ok progress w' := by
  obtain ⟨out, w₁, progress, space, spot, l, hm, hr, -⟩ := he
  exact ⟨hm.comesTo, progress, hr⟩

/-! ## A visit to the loop -/

/-- A visit to the loop `l` of the frame `f` is under way in the state `w'`: in the round behind `w` it was asked for
    its first run, in the state `w₁`, and so many runs have begun.  For the field `x` in the body, or what is copied
    from it, these texts were written; `y` is the one in the run that began last. -/
inductive Counting (o : Options) (w : Walk) (f : Frame) (l : Loop) (w₁ : Walk) (x : NodeId) :
    Nat → List String → NodeId → Walk → Prop
  /-- The first run begins. -/
  | begun {l' : Loop} {w₂ w' : Walk} {progress : Progress} (turn : turn f l w₁ = .ok (true, l') w₂)
      (round : round o w = .ok progress w') : Counting o w f l w₁ x 1 [] x w'
  /-- A round that neither asks the loop nor comes to the field. -/
  | on {runs : Nat} {texts : List String} {y : NodeId} {w₂ w' : Walk} {progress : Progress}
      (before : Counting o w f l w₁ x runs texts y w₂) (other : ∀ g k w₃, ¬ AsksAgain o w₂ f.loops g k w₃)
      (elsewhere : ¬ ComesTo o w₂ y) (round : round o w₂ = .ok progress w') : Counting o w f l w₁ x runs texts y w'
  /-- The walk comes to the field, and writes it. -/
  | emits {runs : Nat} {texts : List String} {y : NodeId} {w₂ w' : Walk} {text : String}
      (before : Counting o w f l w₁ x runs texts y w₂) (emits : Emits o w₂ y text w') :
      Counting o w f l w₁ x runs (texts ++ [text]) y w'
  /-- The loop is asked, and the next run begins; there the field is `y'`. -/
  | again {runs : Nat} {texts : List String} {y y' : NodeId} {w₂ w₃ w₄ w' : Walk} {g : Frame} {k k' : Loop}
      {progress : Progress} (before : Counting o w f l w₁ x runs texts y w₂) (asks : AsksAgain o w₂ f.loops g k w₃)
      (turn : turn g k w₃ = .ok (true, k') w₄)
      (copy : Tree.Twin w₃.space.tree w₄.space.tree k.anchor k'.anchor y y') (round : round o w₂ = .ok progress w') :
      Counting o w f l w₁ x (runs + 1) texts y' w'

/-- A round that visits a node asks no loop. -/
theorem TakesUp.not_asks (h : TakesUp o w g r w₁) (hn : r.next = some n) : ¬ AsksAgain o w outer f k w₂ := by
  rintro ⟨g', r', w₀, htakes, hn', -⟩
  obtain ⟨w₃, f₃, more, hrot, hf, ht, -⟩ := h
  rw [htakes.unique hrot hf ht, hn] at hn'
  cases hn'

/-- How far the field has counted: as many texts as runs have been written, or one less, as long as the walk is to come
    to the field in this run. -/
structure Tally (o : Options) (s : Setup) (outer : List Loop) (m : Int) (runs : Nat) (texts : List String) (y : NodeId)
    (w : Walk) : Prop where
  reached : Reached o s w
  ahead : ∃ l way due, Amid w outer l y way due ∧ runs = texts.length + due ∧ due ≤ 1
  told : ∀ (i : Nat) text, texts[i]? = some text → Tells text (m + i)
  holds : Increments w.space.tree y (m + texts.length)

section

variable (h : Tally o s outer m runs texts y w) (hs : s.Fresh)

include h

theorem Tally.not_lazy : w.space.tree.attr? y "eval" ≠ some "lazy" := by
  rw [h.holds.eval]
  exact (Option.some_ne_none _).symm

include hs

/-- A round that neither asks the loop nor comes to the field. -/
theorem Tally.on (hno : ∀ f k w₁, ¬ AsksAgain o w outer f k w₁) (hcomes : ¬ ComesTo o w y)
    (hr : Walk.round o w = .ok progress w') : Tally o s outer m runs texts y w' := by
  obtain ⟨roots, hc⟩ := h.reached.coherent
  obtain ⟨l, way, due, hamid, hruns, hdue⟩ := h.ahead
  obtain ⟨left, hamid', -, hleft⟩ := hc.amid_round h.reached.intact hs hamid h.not_lazy hno hr
  obtain ⟨rfl, hu⟩ := hleft hcomes
  have hr' : Reached o s w' := .round h.reached hr
  obtain ⟨roots', hc'⟩ := hr'.coherent
  exact ⟨hr', ⟨l, way, left, hamid', hruns, hdue⟩, h.told,
    h.holds.congr hc.wellFormed hc'.wellFormed fun z hz => (hu z hz).2.2⟩

/-- A round in which the field is written. -/
theorem Tally.emits (he : Emits o w y text w') : Tally o s outer m runs (texts ++ [text]) y w' := by
  obtain ⟨roots, hc⟩ := h.reached.coherent
  obtain ⟨l, way, due, hamid, hruns, hdue⟩ := h.ahead
  obtain ⟨hcomes, progress, hr⟩ := he.exists_round
  obtain ⟨g, r, w₁, htakes, hn⟩ := id hcomes
  obtain ⟨left, hamid', hleft, -⟩ :=
    hc.amid_round h.reached.intact hs hamid h.not_lazy (fun _ _ _ => htakes.not_asks hn) hr
  have hleft := hleft hcomes
  obtain ⟨htells, hnext⟩ := he.counts hc hamid h.holds
  have hlen : (texts ++ [text]).length = texts.length + 1 := List.length_append
  refine ⟨.round h.reached hr, ⟨l, way, left, hamid', by omega, by omega⟩, fun i text' hi => ?_, ?_⟩
  · rcases Nat.lt_trichotomy i texts.length with hlt | rfl | hgt
    · rw [List.getElem?_append_left hlt] at hi
      exact h.told i text' hi
    · rw [List.getElem?_concat_length] at hi
      cases hi
      exact htells
    · rw [List.getElem?_eq_none (by rw [hlen]; exact hgt)] at hi
      cases hi
  · rw [hlen, Nat.cast_add, Nat.cast_one, ← Int.add_assoc]
    exact hnext

/-- The loop is asked: the field has been written in each run, and it holds what it has come to. -/
theorem Tally.asked (ha : AsksAgain o w outer f k w₁) :
    texts.length = runs ∧ Increments w₁.space.tree y (m + runs) ∧ f.seesSecondary = true
      ∧ (∃ way, AmidIn w₁.space.tree f outer k y way) ∧ ∃ root q, AtLoopEnd w₁ f [] root k.anchor q k outer := by
  obtain ⟨roots, hc⟩ := h.reached.coherent
  obtain ⟨l, way, due, hamid, hruns, hdue⟩ := h.ahead
  obtain ⟨rfl, rfl, hin, hu, hsees, root, q, hat⟩ := hc.amid_asks h.reached.intact hs hamid h.not_lazy ha
  rw [Nat.add_zero] at hruns
  subst hruns
  exact ⟨rfl, h.holds.congr hc.wellFormed hat.wellFormed fun z hz => (hu z hz).2.2, hsees, ⟨way, hin⟩, root, q, hat⟩

/-- The loop goes on: there is a copy of the field in the further run, or the field itself. -/
theorem Tally.exists_twin (ha : AsksAgain o w outer f k w₁) (ht : turn f k w₁ = .ok (true, l') w₂) :
    ∃ y', Tree.Twin w₁.space.tree w₂.space.tree k.anchor l'.anchor y y' := by
  obtain ⟨-, -, -, ⟨way, hin⟩, root, q, hat⟩ := h.asked hs ha
  obtain ⟨S, rfl, hturned, hstep⟩ := hat.turned ht
  have hcont : Continues ⟨k, w₁.space.tree, w₁.feedOf f k, f.scan⟩ q S := hstep
  obtain ⟨es, hes, hes'⟩ := hcont.advanced.copies hat.wellFormed (by rw [hat.anchor, hat.parent])
  rw [hturned.tree]
  exact hin.way.exists_twin hat.wellFormed hes hes'

/-- The loop goes on. -/
theorem Tally.again {y' : NodeId} (ha : AsksAgain o w outer f k w₁) (ht : turn f k w₁ = .ok (true, l') w₂)
    (htwin : Tree.Twin w₁.space.tree w₂.space.tree k.anchor l'.anchor y y') (hr : Walk.round o w = .ok progress w') :
    Tally o s outer m (runs + 1) texts y' w' := by
  obtain ⟨hlen, hx, hsees, ⟨way, hin⟩, root, q, hat⟩ := h.asked hs ha
  obtain ⟨S, hloop, hcont, htree, hw'⟩ := hat.round_again ha ht hr
  have hadv : Loop.Turn.Advanced w₁.space.tree q k.anchor S.loop.anchor S.tree := hcont.advanced
  obtain ⟨es, hes, hes'⟩ := hadv.copies hat.wellFormed (by rw [hat.anchor, hat.parent])
  have hwf : w₂.space.tree.WellFormed := htree ▸ hadv.wellFormed
  rw [← htree, ← hloop] at hes'
  obtain ⟨⟨way', hway'⟩, hcopy⟩ := hin.way.of_twin hat.wellFormed hwf hes hes' htwin
  have hname : w₂.space.tree.name y' = "item" := hcopy.name.trans hin.name
  have hamid := hat.amid_again hsees ha ht hway' hname hr
  have hspace : w'.space.tree = w₂.space.tree := by rw [hw']
  refine ⟨.round h.reached hr, ⟨l', way', 1, hamid, by rw [hlen], Nat.le_refl 1⟩, h.told, ?_⟩
  rw [hspace, hlen]
  exact hx.of_twin hat.wellFormed hwf hcopy

end

/-- While a visit to the loop is under way, the field counts. -/
theorem Counting.tally (h : Counting o w f l w₁ x runs texts y w') (hr : Reached o s w) (hs : s.Fresh)
    (ha : AsksFirst o w n f l w₁) (hsees : f.seesSecondary = true) (hway : Way w₁.space.tree n x way)
    (hname : w₁.space.tree.name x = "item") (hx : Increments w₁.space.tree x m) :
    Tally o s f.loops m runs texts y w' := by
  induction h with
  | begun turn round =>
    obtain ⟨roots, hc⟩ := hr.coherent
    obtain ⟨hamid, htree⟩ := hc.amid_first ha hsees hway hname turn round
    refine ⟨.round hr round, ⟨_, way, 1, hamid, rfl, Nat.le_refl 1⟩, fun i text hi => ?_, ?_⟩
    · cases hi
    · rw [htree]
      exact (Int.add_zero m).symm ▸ hx
  | on _ other elsewhere round ih => exact ih.on hs other elsewhere round
  | emits _ emits ih => exact ih.emits hs emits
  | again _ asks turn copy round ih => exact ih.again hs asks turn copy round

/-- The walk comes to the field only in a run in which it has not come to it yet. -/
theorem Tally.runs_of_meets (h : Tally o s outer m runs texts y w) (hm : Meets o w y out w₁) :
    runs = texts.length + 1 := by
  obtain ⟨roots, hc⟩ := h.reached.coherent
  obtain ⟨l, way, due, hamid, hruns, hdue⟩ := h.ahead
  have hpos := hc.due_of_comesTo hamid hm.comesTo
  omega

/-! ## What the next round does -/

/-- Whether the next round takes up a run that passes a test. -/
def takesUp (o : Options) (p : Frame → Run → Walk → Bool) (w : Walk) : Bool :=
  Action.succeeds (rotate o w) fun _ w₁ =>
    match w₁.frames with
    | [] => false
    | f :: more => (takeRun f).any fun (r, g) => p g r { w₁ with frames := g :: more }

theorem exists_takesUp {p : Frame → Run → Walk → Bool} (h : takesUp o p w = true) :
    ∃ g r w₁, TakesUp o w g r w₁ ∧ p g r w₁ = true := by
  obtain ⟨_, w₁, hrot, h⟩ := Action.succeeds_iff.mp h
  cases hf : w₁.frames with
  | nil =>
    rw [hf] at h
    cases h
  | cons f more =>
    rw [hf] at h
    obtain ⟨⟨r, g⟩, ht, h⟩ := (Option.any_eq_true _ _).mp h
    exact ⟨g, r, _, ⟨w₁, f, more, hrot, hf, ht, rfl⟩, h⟩

/-- Whether the next round visits a node. -/
def visitsNode (o : Options) : Walk → Bool := takesUp o fun _ r _ => r.next.isSome

theorem not_asks_of_visitsNode (h : visitsNode o w = true) (f : Frame) (k : Loop) (w₁ : Walk) :
    ¬ AsksAgain o w outer f k w₁ := by
  obtain ⟨g, r, w₂, htakes, hn⟩ := exists_takesUp h
  obtain ⟨n, hn⟩ := Option.isSome_iff_exists.mp hn
  exact htakes.not_asks hn

/-- Whether the next round comes to a field, for which the records have no value, while a sink is open. -/
def meetsField (o : Options) (x : NodeId) : Walk → Bool :=
  takesUp o fun g r w =>
    r.next == some x && w.sink.isSome && w.recordValue g (w.space.tree.keyPath r.key x) x == ""

theorem exists_meets (h : meetsField o x w = true) : ∃ out w₁, Meets o w x out w₁ := by
  obtain ⟨g, r, w₁, htakes, h⟩ := exists_takesUp h
  simp only [Bool.and_eq_true, beq_iff_eq] at h
  obtain ⟨⟨hn, hout⟩, hvalue⟩ := h
  obtain ⟨out, hout⟩ := Option.isSome_iff_exists.mp hout
  exact ⟨out, w₁, g, r, htakes, hn, hout, hvalue⟩

/-- Whether the next round asks the loop around a run for one more run, and leads to something that passes a test. -/
def asksLoop (o : Options) (p : Frame → Loop → List Loop → Walk → Bool) : Walk → Bool :=
  takesUp o fun _ r w =>
    match r.next, w.space.tree.ancestors r.first with
    | none, a :: _ =>
      w.space.tree.name a == "repeat"
        && Action.succeeds ((if (w.space.tree.computed a).seq = some 0 then pushLevel else completeLevel o) w)
          fun _ w₁ =>
            match w₁.frames with
            | [f] =>
              match f.loops with
              | k :: outer => k.anchor == a && p f k outer w₁
              | [] => false
            | _ => false
    | _, _ => false

theorem exists_asksAgain {p : Frame → Loop → List Loop → Walk → Bool} (h : asksLoop o p w = true) :
    ∃ f k outer w₁, AsksAgain o w outer f k w₁ ∧ p f k outer w₁ = true := by
  obtain ⟨g, r, w₀, htakes, h⟩ := exists_takesUp h
  split at h
  · rename_i a parents hn hparents
    simp only [Bool.and_eq_true, beq_iff_eq] at h
    obtain ⟨hname, h⟩ := h
    obtain ⟨_, w₁, hlevel, h⟩ := Action.succeeds_iff.mp h
    split at h
    · rename_i f hf
      split at h
      · rename_i k outer hl
        simp only [Bool.and_eq_true, beq_iff_eq] at h
        obtain ⟨rfl, hp⟩ := h
        exact ⟨f, k, outer, w₁, ⟨g, r, w₀, htakes, hn, hparents ▸ .here hname hlevel, hf, hl⟩, hp⟩
      · cases h
    · cases h
  · cases h

/-- Whether a field declares nothing but an integer that grows, and which text that holds. -/
def declares (t : Tree) (x : NodeId) (text : String) : Bool :=
  t.attr? x "eval" == none && match t.children x with
    | [d] => t.name d == "default-value" && t.attr? d "type" == some "auto-increment" && t.stringValue d == text
    | _ => false

theorem increments_of_declares {t : Tree} (h : declares t x text = true) (htells : Tells text m) :
    Increments t x m := by
  unfold declares at h
  rw [Bool.and_eq_true, beq_iff_eq] at h
  obtain ⟨heval, h⟩ := h
  split at h
  · rename_i d hns
    simp only [Bool.and_eq_true, beq_iff_eq] at h
    obtain ⟨⟨hname, htype⟩, htext⟩ := h
    exact .of_declared heval hns hname ⟨htype, .inr (htext ▸ htells)⟩
  · cases h

/-! ## Counting runs -/

/-- The field `x` counts the runs of a visit to a loop: it is written once in each run, first as the integer `m`, and
    then as the next one each time; and the copy of it in the last run holds the integer that is next. -/
structure CountsRuns (o : Options) (w : Walk) (f : Frame) (l : Loop) (w₁ : Walk) (x : NodeId) (m : Int) : Prop where
  /-- The texts that are written. -/
  texts : ∀ runs texts y w', Counting o w f l w₁ x runs texts y w' → ∀ (i : Nat) text, texts[i]? = some text →
    Tells text (m + i)
  /-- In a run, the field is written once at most, and then holds the next integer. -/
  inRun : ∀ runs texts y w', Counting o w f l w₁ x runs texts y w' →
    texts.length ≤ runs ∧ runs ≤ texts.length + 1 ∧ Increments w'.space.tree y (m + texts.length)
  /-- As long as there are integers left, there is a text for the field. -/
  resolves : ∀ runs texts y w', Counting o w f l w₁ x runs texts y w' → ∀ out w₂, Meets o w' y out w₂ →
    m + runs ≤ lastCount →
      ∃ text space, Field.value o (out.flush.reader w₂.files) y (w₂.unvalued y) = .ok text space
        ∧ Tells text (m + texts.length)
  /-- The round is one that writes it. -/
  emits : ∀ runs texts y w', Counting o w f l w₁ x runs texts y w' → ∀ out w₂ progress w'', Meets o w' y out w₂ →
    Walk.round o w' = .ok progress w'' → ∃ text, Emits o w' y text w''
  /-- If the loop goes on, there is a copy of the field in the next run, or the field itself. -/
  further : ∀ runs texts y w', Counting o w f l w₁ x runs texts y w' → ∀ g k w₂, AsksAgain o w' f.loops g k w₂ →
    ∀ k' w₃, turn g k w₂ = .ok (true, k') w₃ → ∃ y', Tree.Twin w₂.space.tree w₃.space.tree k.anchor k'.anchor y y'
  /-- If the loop ends, there is a text for each run, and the field holds the integer behind them. -/
  ended : ∀ runs texts y w', Counting o w f l w₁ x runs texts y w' → ∀ g k w₂, AsksAgain o w' f.loops g k w₂ →
    ∀ k' w₃, turn g k w₂ = .ok (false, k') w₃ →
      texts.length = runs ∧ (∀ i < runs, ∃ text, texts[i]? = some text ∧ Tells text (m + i))
        ∧ Increments w₃.space.tree y (m + runs)

theorem countsRuns (hr : Reached o s w) (hs : s.Fresh) (ha : AsksFirst o w n f l w₁) (hsees : f.seesSecondary = true)
    (hway : Way w₁.space.tree n x way) (hname : w₁.space.tree.name x = "item") (hx : Increments w₁.space.tree x m) :
    CountsRuns o w f l w₁ x m := by
  have htally : ∀ {runs texts y w'}, Counting o w f l w₁ x runs texts y w' → Tally o s f.loops m runs texts y w' :=
    fun h => h.tally hr hs ha hsees hway hname hx
  refine ⟨fun runs texts y w' h => (htally h).told, fun runs texts y w' h => ?_,
    fun runs texts y w' h out w₂ hm hle => ?_, fun runs texts y w' h out w₂ progress w'' hm hround => ?_,
    fun runs texts y w' h g k w₂ hasks k' w₃ ht => (htally h).exists_twin hs hasks ht,
    fun runs texts y w' h g k w₂ hasks k' w₃ ht => ?_⟩
  · obtain ⟨l, way, due, -, hruns, hdue⟩ := (htally h).ahead
    exact ⟨by omega, by omega, (htally h).holds⟩
  · obtain ⟨roots, hc⟩ := (htally h).reached.coherent
    obtain ⟨l, way, due, hamid, -⟩ := (htally h).ahead
    have hruns := (htally h).runs_of_meets hm
    exact hc.resolves hamid (htally h).holds hm (by omega)
  · obtain ⟨roots, hc⟩ := (htally h).reached.coherent
    obtain ⟨l, way, due, hamid, -⟩ := (htally h).ahead
    obtain ⟨text, space, spot, bytes, hw, hsink, -⟩ := hc.emits hamid (htally h).holds hm hround
    exact ⟨text, out, w₂, progress, space, spot, bytes, hm, hround, hw, hsink⟩
  · obtain ⟨hlen, hholds, -, -, root, q, hat⟩ := (htally h).asked hs hasks
    obtain ⟨S, rfl, hturned, hstep⟩ := hat.turned ht
    have hends : Loop.Turn.Ends ⟨k, w₂.space.tree, w₂.feedOf g k, g.scan⟩ S := hstep
    refine ⟨hlen, fun i hi => ?_, ?_⟩
    · rw [← hlen] at hi
      exact ⟨_, List.getElem?_eq_getElem hi, (htally h).told i _ (List.getElem?_eq_getElem hi)⟩
    · rw [hturned.tree, hends.tree]
      exact hholds

/-- A field without a value, whose only default is an integer that grows, counts the runs of a loop of the main
    document, in whose body it stands, directly or in groups, while an output is open whenever the walk comes to it.

    In whatever state, the last integer of sixty-four bits is not given out, and stays; what is given out is an integer
    below it, and the next one is kept.  So no integer is given out twice, and none is wrapped. -/
theorem auto_increment_counts_runs (o : Options) :
    (∀ s w n f l w₁ x way m, Reached o s w → s.Fresh → AsksFirst o w n f l w₁ → f.seesSecondary = true →
      Way w₁.space.tree n x way → w₁.space.tree.name x = "item" → Increments w₁.space.tree x m →
        CountsRuns o w f l w₁ x m)
    ∧ ∀ (space : Workspace) d x, space.tree.attr? d "type" = some "auto-increment" →
      (Tells (space.tree.stringValue d) lastCount →
        Field.evaluate o d x space = .error (.of .incrementOverflow) space)
      ∧ ∀ text space', Field.evaluate o d x space = .ok text space' → space.tree.WellFormed → space.tree.Live d →
        ∃ m < lastCount, Field.Counts (space.tree.stringValue d) m ∧ Tells text m
          ∧ Tells (space'.tree.stringValue d) (m + 1) := by
  refine ⟨fun s w n f l w₁ x way m hr hs ha hsees hway hname hx => countsRuns hr hs ha hsees hway hname hx,
    fun space d x htype => ⟨fun hlast => Field.evaluate_of_last ⟨htype, .inr hlast⟩, fun text space' h hwf hl => ?_⟩⟩
  obtain ⟨m, hd⟩ := Field.exists_grows htype h
  obtain ⟨hlt, htells, rfl⟩ := Field.evaluate_eq_ok hd h
  exact ⟨m, hlt, hd.counts, htells, hd.tells_setValue hwf hl hlt⟩

/-- In a loop that unrolls, the field and its copy are written as two integers in a row. -/
theorem auto_increment_counts_two_runs :
    let number : Element := .mk "default-value" [("type", "auto-increment")] "5" .none []
    let loop : Element := .mk "repeat" [("max", "2"), ("unrolling", "true")] "" .none [.mk "item" [] "" .none [number]]
    let layout : Element := .mk "layout" [] "" .none [loop]
    let s : Setup := ⟨⟨layout, none, none⟩, [], some (Sink.inMemory ""), .memory, .zero, .stored [], .empty⟩
    ∃ o w f l w₁, Reached o s w ∧ AsksFirst o w 1 f l w₁ ∧ CountsRuns o w f l w₁ 2 5
      ∧ ∃ t₀ t₁ w', Counting o w f l w₁ 2 2 [t₀, t₁] 6 w' ∧ Tells t₀ 5 ∧ Tells t₁ 6 := by
  intro number loop layout s
  let o : Options := .standard ⟨2000, 1, 1, 0, 0, 0, 0⟩
  have hrun : Action.succeeds (start o ⟨0, s.main.path⟩ (begin s)) (fun _ w =>
      entersLoop o 1 (fun f l w₁ => f.seesSecondary && f.loops.isEmpty && w₁.space.tree.parent? 2 == some 1
          && w₁.space.tree.name 2 == "item" && declares w₁.space.tree 2 "5"
          && Action.succeeds (turn f l w₁) fun said _ => said.1) w
        && Action.succeeds (round o w) fun _ w => meetsField o 2 w
        && Action.succeeds (round o w) fun _ w =>
          asksLoop o (fun g k outer w₁ => outer.isEmpty
            && Action.succeeds (turn g k w₁) fun said w₂ => said.1
              && (w₁.space.tree.children k.anchor)[0]? == some 2
              && (w₂.space.tree.children said.2.anchor)[0]? == some 6) w
            && Action.succeeds (round o w) fun _ w => meetsField o 6 w
            && Action.succeeds (round o w) fun _ _ => true) = true := by
    decide +kernel
  obtain ⟨_, w, hstart, hrun⟩ := Action.succeeds_iff.mp hrun
  rw [Bool.and_eq_true] at hrun
  obtain ⟨henter, hrun⟩ := hrun
  obtain ⟨f, l, w₁, ha, henter⟩ := exists_asksFirst henter
  obtain ⟨_, w₂, h₂, hrun⟩ := Action.succeeds_iff.mp hrun
  rw [Bool.and_eq_true] at hrun
  obtain ⟨hmeets, hrun⟩ := hrun
  obtain ⟨_, w₃, h₃, hrun⟩ := Action.succeeds_iff.mp hrun
  rw [Bool.and_eq_true] at hrun
  obtain ⟨hasks, hrun⟩ := hrun
  obtain ⟨_, w₄, h₄, hrun⟩ := Action.succeeds_iff.mp hrun
  rw [Bool.and_eq_true] at hrun
  obtain ⟨hmeets', hrun⟩ := hrun
  obtain ⟨_, w₅, h₅, -⟩ := Action.succeeds_iff.mp hrun
  simp only [Bool.and_eq_true, beq_iff_eq, List.isEmpty_iff] at henter
  obtain ⟨⟨⟨⟨⟨hsees, hloops⟩, hparent⟩, hname⟩, hdeclares⟩, hturn⟩ := henter
  obtain ⟨⟨_, l'⟩, w₆, hturn, rfl⟩ := Action.succeeds_iff.mp hturn
  have hr : Reached o s w := .start hstart
  have hfresh : s.Fresh := by
    rintro _ ⟨⟩
    rfl
  have hcounts : CountsRuns o w f l w₁ 2 5 := (auto_increment_counts_runs o).1 s w 1 f l w₁ 2 [2] 5 hr hfresh ha hsees
    (.child hparent) hname (increments_of_declares hdeclares (Field.boundedInt_iff_tells.mp (by decide +kernel)))
  have hbegun : Counting o w f l w₁ 2 1 [] 2 w₂ := .begun hturn h₂
  obtain ⟨out, w₇, hm⟩ := exists_meets hmeets
  obtain ⟨t₀, he⟩ := hcounts.emits _ _ _ _ hbegun _ _ _ _ hm h₃
  have hfirst := Counting.emits hbegun he
  obtain ⟨g, k, outer, w₈, hasks, hp⟩ := exists_asksAgain hasks
  simp only [Bool.and_eq_true, List.isEmpty_iff] at hp
  obtain ⟨rfl, hp⟩ := hp
  rw [← hloops] at hasks
  obtain ⟨⟨_, k'⟩, w₉, hturn', hp⟩ := Action.succeeds_iff.mp hp
  simp only [Bool.and_eq_true, beq_iff_eq] at hp
  obtain ⟨⟨rfl, hplace⟩, hplace'⟩ := hp
  have hagain := Counting.again hfirst hasks hturn' (.child .root hplace hplace') h₄
  obtain ⟨out', w₁₀, hm'⟩ := exists_meets hmeets'
  obtain ⟨t₁, he'⟩ := hcounts.emits _ _ _ _ hagain _ _ _ _ hm' h₅
  have hsecond := Counting.emits hagain he'
  have htells := hcounts.texts _ _ _ _ hsecond
  exact ⟨o, w, f, l, w₁, hr, ha, hcounts, t₀, t₁, w₅, hsecond, htells 0 t₀ rfl, htells 1 t₁ rfl⟩

/-- Where no output is open, the field does not count: here there is none in the first of two runs.  So in the second
    run the field is written as the integer that it has held from the beginning. -/
theorem auto_increment_idle_without_output :
    let number : Element := .mk "default-value" [("type", "auto-increment")] "5" .none []
    let writer : Element := .mk "writer" [("type", "memory")] "" .none []
    let loop : Element := .mk "repeat" [("max", "2")] "" .none [.mk "item" [] "" .none [number], writer]
    let layout : Element := .mk "format" [] "" .none [loop]
    let s : Setup := ⟨⟨layout, none, none⟩, [], none, .memory, .zero, .stored [], .empty⟩
    ∃ o w f l w₁, Reached o s w ∧ AsksFirst o w 1 f l w₁ ∧ f.seesSecondary = true ∧ f.loops = []
      ∧ Way w₁.space.tree 1 2 [2] ∧ w₁.space.tree.name 2 = "item" ∧ Increments w₁.space.tree 2 5
      ∧ ∃ first second w' g k w₂ k' w₃, Underway o (fun _ _ => True) w f l w₁ [first, second] w'
        ∧ AsksAgain o w' [] g k w₂ ∧ turn g k w₂ = .ok (false, k') w₃
        ∧ (w₃.space.tree.computed 2).result = some "5" ∧ ¬ Tells "5" (5 + 1)
        ∧ ¬ Increments w₃.space.tree 2 (5 + 2) := by
  intro number writer loop layout s
  let o : Options := .standard ⟨2000, 1, 1, 0, 0, 0, 0⟩
  have hrun : Action.succeeds (start o ⟨0, s.main.path⟩ (begin s)) (fun _ w =>
      entersLoop o 1 (fun f l w₁ => f.seesSecondary && f.loops.isEmpty && w₁.space.tree.parent? 2 == some 1
          && w₁.space.tree.name 2 == "item" && declares w₁.space.tree 2 "5"
          && Action.succeeds (turn f l w₁) fun said _ => said.1) w
        && Action.succeeds (round o w) fun _ w => visitsNode o w
        && Action.succeeds (round o w) fun _ w => visitsNode o w
        && Action.succeeds (round o w) fun _ w =>
          asksLoop o (fun g k outer w₁ => outer.isEmpty && Action.succeeds (turn g k w₁) fun said _ => said.1) w
        && Action.succeeds (round o w) fun _ w => visitsNode o w
        && Action.succeeds (round o w) fun _ w => visitsNode o w
        && Action.succeeds (round o w) fun _ w =>
          asksLoop o (fun g k outer w₁ => outer.isEmpty && Action.succeeds (turn g k w₁) fun said w₂ => !said.1
            && w₂.space.tree.children 2 == [5, 3] && w₂.space.tree.stringValue 3 == "6"
            && (w₂.space.tree.computed 2).result == some "5") w) = true := by
    decide +kernel
  obtain ⟨_, w, hstart, hrun⟩ := Action.succeeds_iff.mp hrun
  obtain ⟨henter, hrun⟩ := (Bool.and_eq_true _ _).mp hrun
  obtain ⟨f, l, w₁, ha, henter⟩ := exists_asksFirst henter
  obtain ⟨_, w₂, h₂, hrun⟩ := Action.succeeds_iff.mp hrun
  obtain ⟨hitem, hrun⟩ := (Bool.and_eq_true _ _).mp hrun
  obtain ⟨_, w₃, h₃, hrun⟩ := Action.succeeds_iff.mp hrun
  obtain ⟨hwriter, hrun⟩ := (Bool.and_eq_true _ _).mp hrun
  obtain ⟨_, w₄, h₄, hrun⟩ := Action.succeeds_iff.mp hrun
  obtain ⟨hasks, hrun⟩ := (Bool.and_eq_true _ _).mp hrun
  obtain ⟨_, w₅, h₅, hrun⟩ := Action.succeeds_iff.mp hrun
  obtain ⟨hitem', hrun⟩ := (Bool.and_eq_true _ _).mp hrun
  obtain ⟨_, w₆, h₆, hrun⟩ := Action.succeeds_iff.mp hrun
  obtain ⟨hwriter', hrun⟩ := (Bool.and_eq_true _ _).mp hrun
  obtain ⟨_, w₇, h₇, hlast⟩ := Action.succeeds_iff.mp hrun
  simp only [Bool.and_eq_true, beq_iff_eq, List.isEmpty_iff] at henter
  obtain ⟨⟨⟨⟨⟨hsees, hloops⟩, hparent⟩, hname⟩, hdeclares⟩, hturn⟩ := henter
  obtain ⟨⟨_, l'⟩, w₈, hturn, rfl⟩ := Action.succeeds_iff.mp hturn
  have hbegun : Underway o (fun _ _ => True) w f l w₁ [w₈] w₄ :=
    .on (.on (.begun hturn h₂) (not_asks_of_visitsNode hitem) h₃) (not_asks_of_visitsNode hwriter) h₄
  obtain ⟨g, k, outer, w₉, hasks, hp⟩ := exists_asksAgain hasks
  simp only [Bool.and_eq_true, List.isEmpty_iff] at hp
  obtain ⟨rfl, hp⟩ := hp
  rw [← hloops] at hasks
  obtain ⟨⟨_, k'⟩, w₁₀, hturn', rfl⟩ := Action.succeeds_iff.mp hp
  have hagain : Underway o (fun _ _ => True) w f l w₁ ([] ++ [w₈] ++ [w₁₀]) w₇ :=
    .on (.on (.again hbegun hasks trivial hturn' h₅) (not_asks_of_visitsNode hitem') h₆)
      (not_asks_of_visitsNode hwriter') h₇
  obtain ⟨g', x, outer', w₁₁, hasks', hp⟩ := exists_asksAgain hlast
  simp only [Bool.and_eq_true, List.isEmpty_iff] at hp
  obtain ⟨rfl, hp⟩ := hp
  obtain ⟨⟨_, x'⟩, w₁₂, hturn'', hp⟩ := Action.succeeds_iff.mp hp
  simp only [Bool.and_eq_true, Bool.not_eq_true', beq_iff_eq] at hp
  obtain ⟨⟨⟨rfl, hchildren⟩, htext⟩, hresult⟩ := hp
  have hfive : Tells "5" 5 := Field.boundedInt_iff_tells.mp (by decide +kernel)
  have hsix : Tells "6" 6 := Field.boundedInt_iff_tells.mp (by decide +kernel)
  refine ⟨o, w, f, l, w₁, .start hstart, ha, hsees, hloops, .child hparent, hname,
    increments_of_declares hdeclares hfive, w₈, w₁₀, w₇, g', x, w₁₁, x', w₁₂, hagain, hasks', hturn'', hresult,
    fun h => absurd (hfive.unique h) (by decide), fun h => ?_⟩
  obtain ⟨vs, d, hns, -, -, -, hd⟩ := h.parts
  rw [hchildren] at hns
  obtain ⟨-, hdeq⟩ := List.append_inj' (show [5] ++ [3] = vs ++ [d] from hns) rfl
  cases hdeq
  have hcounts := hd.counts
  rw [htext] at hcounts
  rcases hcounts with ⟨hempty, -⟩ | hseven
  · exact absurd hempty (by decide)
  · exact absurd (hsix.unique hseven) (by decide)

end Stencil.Walk
