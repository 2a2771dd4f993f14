/-
  Loops over secondary documents run once for each of them.

  A loop over documents moves the cursor one entry on for each run, and reads the first record there.  A loop
  over records finds that record read, and reads the next one for each further run.
-/
import Stencil.Proofs.Loop.Feeds
import Stencil.Proofs.Walk.Engaged

set_option autoImplicit false

namespace Stencil

/-! ## Loops that run through what they move on -/

namespace Walk

variable {w w₁ w' : Walk} {o : Options} {f g : Frame} {l l' x : Loop} {outer : List Loop} {n : NodeId}
  {s : Setup} {c : Combined} {i : Nat} {rows : List Row} {starts : List Walk} {still : Walk → Walk → Prop}

/-- The node of a loop of a type that fetches by default, has no maximum, and has something in it to run. -/
structure RunsThrough (t : Tree) (n : NodeId) (type : String) : Prop where
  type : t.attr? n "type" = some type
  fetch : t.attr? n "fetch" = none
  max : t.attr? n "max" = none
  xmax : t.attr? n "xmax" = none
  body : t.children n ≠ []

/-- A loop of a kind that moves on itself, as far as it can. -/
structure Through (kind : Strategy.Kind) (l : Loop) : Prop where
  kind : l.strategy.kind = kind
  fetch : l.fetch = true
  max : l.max = none

theorem Through.of_sameLoop {kind : Strategy.Kind} (h : Through kind l) (hs : Loop.Turn.SameLoop l l') :
    Through kind l' :=
  ⟨hs.kind.trans h.kind, hs.fetch.trans h.fetch, hs.max.trans h.max⟩

theorem Through.feeds {kind : Strategy.Kind} (h : Through kind l) (hk : kind ≠ .counted) :
    l.feedsOnDocuments = true := by
  unfold Loop.feedsOnDocuments Strategy.isCounted
  split
  · rename_i hs
    exact absurd (h.kind.symm.trans (by rw [hs]; rfl)) hk
  · rfl

/-- What a node declares that leaves everything to its type. -/
theorem through_of_declared {t t' : Tree} {type key : String} {kind : Strategy.Kind}
    (h : RunsThrough t' n type) (ha : (t'.node n).attrs = (t.node n).attrs)
    (hd : Loop.declared t n key c = .ok l) (hk : ∀ strategy : Strategy, Loop.strategyOf t n c = .ok strategy →
      t.attr? n "type" = some type → strategy.kind = kind) (hcounted : kind ≠ .counted) : Through kind l := by
  have hattr : ∀ name, t'.attr? n name = t.attr? n name := fun name => by
    unfold Tree.attr?
    rw [ha]
  have hdecl := Loop.declared_eq_ok hd
  have hkind := hk _ hdecl.strategy ((hattr _).symm.trans h.type)
  refine ⟨hkind, ?_, ?_⟩
  · obtain ⟨flag, hflag, hfetch⟩ := hdecl.fetch
    unfold Loop.flag? at hflag
    rw [← hattr, h.fetch] at hflag
    cases hflag
    rw [hfetch]
    unfold Strategy.isCounted
    split
    · rename_i hs
      exact absurd (hkind.symm.trans (by rw [hs]; rfl)) hcounted
    · rfl
  · have hmax := hdecl.max
    unfold Loop.max? at hmax
    rw [← hattr, ← hattr, h.max, h.xmax] at hmax
    exact (Except.ok.inj hmax).symm

/-- A turn of a loop that has a body and no maximum: it goes on if it can move on. -/
theorem turn_of_move {s₁ : Loop.Turn} {p : NodeId} {moved : Bool} (hwf : w.space.tree.WellFormed)
    (hp : w.space.tree.parent? l.anchor = some p) (hbody : w.space.tree.children l.anchor ≠ [])
    (hmax : l.max = none) (hfeeds : l.feedsOnDocuments = true)
    (h : Loop.Turn.move ⟨l, w.space.tree, .documents (w.visible f), f.scan⟩ = .ok moved s₁)
    (hf : s₁.feed = .documents c) :
    ∃ l' w', turn f l w = .ok (moved, l') w' ∧ (f.seesSecondary = true → w'.secondary = c) := by
  obtain ⟨S, hS, hfeed⟩ := Loop.Turn.next_of_move hwf hp hbody hmax h hf
  have hfeedOf : w.feedOf f l = .documents (w.visible f) := if_pos hfeeds
  refine ⟨S.loop, w.afterTurn f S, ?_, fun hsees => ?_⟩
  · unfold turn
    rw [hfeedOf, hS]
  · rw [secondary_afterTurn, hfeed]
    exact if_pos hsees

/-! ## A visit to a loop -/

/-- A visit to the loop `l` of the frame `f` is under way in the state `w'`: in the round behind `w` it was asked for
    its first run, in the state `w₁`, and it has begun a run in each of the states `starts`.  From the beginning of a
    run to the moment when it was asked for the next one, `still` was so. -/
inductive Underway (o : Options) (still : Walk → Walk → Prop) (w : Walk) (f : Frame) (l : Loop) (w₁ : Walk) :
    List Walk → Walk → Prop
  /-- The first run begins. -/
  | begun {l' : Loop} {w₂ w' : Walk} {progress : Progress} (runs : turn f l w₁ = .ok (true, l') w₂)
      (round : round o w = .ok progress w') : Underway o still w f l w₁ [w₂] w'
  /-- A round that does not ask the loop. -/
  | on {starts : List Walk} {w₂ w' : Walk} {progress : Progress} (before : Underway o still w f l w₁ starts w₂)
      (other : ∀ g x w₃, ¬ AsksAgain o w₂ f.loops g x w₃) (round : round o w₂ = .ok progress w') :
      Underway o still w f l w₁ starts w'
  /-- The loop is asked, and the next run begins. -/
  | again {starts : List Walk} {last w₂ w₃ w₄ w' : Walk} {g : Frame} {x x' : Loop} {progress : Progress}
      (before : Underway o still w f l w₁ (starts ++ [last]) w₂) (asks : AsksAgain o w₂ f.loops g x w₃)
      (kept : still last w₃) (runs : turn g x w₃ = .ok (true, x') w₄) (round : round o w₂ = .ok progress w') :
      Underway o still w f l w₁ (starts ++ [last] ++ [w₄]) w'

theorem turn_sameLoop (h : turn f l w = .ok (true, l') w') : Loop.Turn.SameLoop l l' := by
  obtain ⟨S, hS, rfl, -⟩ := turn_ok h
  exact Loop.Turn.sameLoop_next hS

/-- While a visit is under way, its loop runs, and the cursor stands where the last run has begun. -/
theorem Underway.engaged {kind : Strategy.Kind} (h : Underway o still w f l w₁ starts w') (hr : Reached o s w)
    (ha : AsksFirst o w n f l w₁) (hsees : f.seesSecondary = true) (hclear : Clear w₁.space.tree n)
    (hl : Through kind l) :
    Reached o s w' ∧ ∃ prior last x, starts = prior ++ [last] ∧ Engaged w' f.loops x ∧ Through kind x
      ∧ w'.secondary.cursor = last.secondary.cursor := by
  induction h with
  | @begun l' w₂ w' progress runs round =>
    obtain ⟨roots, hc⟩ := hr.coherent
    obtain ⟨he, hsec⟩ := hc.engaged_first ha hsees hclear runs round
    exact ⟨.round hr round, [], w₂, l', rfl, he, hl.of_sameLoop (turn_sameLoop runs), by rw [hsec]⟩
  | @on starts w₂ w' progress _ other round ih =>
    obtain ⟨hr₂, prior, last, x, rfl, he, hx, hcur⟩ := ih
    obtain ⟨roots, hc⟩ := hr₂.coherent
    obtain ⟨he', hcur'⟩ := hc.engaged_round hr₂.ordered he other round
    exact ⟨.round hr₂ round, prior, last, x, rfl, he', hx, hcur'.trans hcur⟩
  | @again starts last w₂ w₃ w₄ w' g x x' progress _ asks _ runs round ih =>
    obtain ⟨hr₂, prior, last', y, hstarts, he, hy, -⟩ := ih
    obtain ⟨roots, hc⟩ := hr₂.coherent
    obtain ⟨rfl, -⟩ := hc.engaged_asks he asks
    obtain ⟨he', hsec⟩ := hc.engaged_again he asks runs round
    exact ⟨.round hr₂ round, _, w₄, x', rfl, he', hy.of_sameLoop (turn_sameLoop runs), by rw [hsec]⟩

/-- What is under way has begun. -/
theorem Underway.begins (h : Underway o still w f l w₁ starts w') :
    ∃ l' w₂, turn f l w₁ = .ok (true, l') w₂ := by
  induction h with
  | begun runs _ => exact ⟨_, _, runs⟩
  | on _ _ _ ih => exact ih
  | again _ _ _ _ _ ih => exact ih

/-- What holds where the first run begins, and is kept from run to run, holds where each run begins. -/
theorem Underway.starts_induct {P : Nat → Walk → Prop} (h : Underway o still w f l w₁ starts w')
    (first : ∀ {l' w₂}, turn f l w₁ = .ok (true, l') w₂ → P 0 w₂)
    (next : ∀ {starts last w₂ g x w₃ x' w₄}, Underway o still w f l w₁ (starts ++ [last]) w₂ →
      P starts.length last → AsksAgain o w₂ f.loops g x w₃ → still last w₃ →
      turn g x w₃ = .ok (true, x') w₄ → P (starts.length + 1) w₄) :
    ∀ i w₂, starts[i]? = some w₂ → P i w₂ := by
  induction h with
  | begun runs _ =>
    intro i w₂ hi
    cases i with
    | zero =>
      cases hi
      exact first runs
    | succ i => cases hi
  | on _ _ _ ih => exact ih
  | @again starts last w₂ w₃ w₄ w' g x x' progress before asks kept runs round ih =>
    intro i w₅ hi
    have hlength : (starts ++ [last]).length = starts.length + 1 := List.length_append
    rcases Nat.lt_trichotomy i (starts ++ [last]).length with hlt | rfl | hgt
    · rw [List.getElem?_append_left hlt] at hi
      exact ih i w₅ hi
    · rw [List.getElem?_concat_length] at hi
      cases hi
      rw [hlength]
      exact next before (ih _ _ List.getElem?_concat_length) asks kept runs
    · rw [List.getElem?_eq_none (by rw [List.length_append]; exact hgt)] at hi
      cases hi

/-- The last run that has begun. -/
theorem Underway.last {P : Nat → Walk → Prop} {prior : List Walk} {last : Walk} (hs : starts = prior ++ [last])
    (h : ∀ i w₂, starts[i]? = some w₂ → P i w₂) : starts.length = prior.length + 1 ∧ P prior.length last := by
  subst hs
  exact ⟨List.length_append, h _ _ List.getElem?_concat_length⟩

theorem decide_of_turn {b : Prop} [Decidable b] {x y : Loop} {w₂ w₃ : Walk} (h : turn f l w = .ok (true, x) w₂)
    (h' : turn f l w = .ok (decide b, y) w₃) : b ∧ w₂ = w₃ := by
  rw [h] at h'
  obtain ⟨hb, hw⟩ := EStateM.Result.ok.inj h'
  exact ⟨of_decide_eq_true (congrArg Prod.fst hb).symm, hw⟩

/-! ## Documents -/

/-- The document that the cursor stands on is current. -/
theorem Ordered.currentIndex_of_cursor {w₂ : Walk} (h : Ordered s w) (hc : w.secondary.cursor = w₂.secondary.cursor)
    (hi : i < s.secondary.length) (hcur : w₂.secondary.currentIndex = some i) :
    w.secondary.currentIndex = some i := by
  unfold Combined.currentIndex
  rw [hc, (Combined.cursor_of_currentIndex hcur).1, Option.filter_some, h.size, if_pos (decide_eq_true hi)]

/-- A loop over documents that is asked for one more run goes on to the next document, if there is one. -/
theorem documents_asked (hr : Reached o s w) (he : Engaged w outer l) (hl : Through .documents l)
    (hcur : w.secondary.currentIndex = some i) (ha : AsksAgain o w outer g x w₁) :
    ∃ x' w₂, turn g x w₁ = .ok (decide (i + 1 < s.secondary.length), x') w₂
      ∧ (i + 1 < s.secondary.length → w₂.secondary.currentIndex = some (i + 1)
        ∧ w₂.secondary.tableAt? (i + 1) = (s.secondary[i + 1]?.bind Document.table).map (·.read.2)) := by
  obtain ⟨roots, hc⟩ := hr.coherent
  obtain ⟨rfl, -, hbody, hon, hsees, root, q, hat⟩ := hc.engaged_asks he ha
  have ho := hr.ordered
  obtain ⟨hcursor, hi⟩ := Combined.cursor_of_currentIndex hcur
  have hcursor₁ : w₁.secondary.cursor = some i := (hon.cursor id).trans hcursor
  have hsize : w₁.secondary.size = s.secondary.length := hon.documents.size.trans ho.size
  have hplace : w₁.secondary.place = i + 1 := by
    unfold Combined.place
    rw [hcursor₁]
    rfl
  have hle : w₁.secondary.place ≤ w₁.secondary.size := by
    rw [hplace, hsize, ← ho.size]
    exact hi
  have hvisible : w₁.visible g = w₁.secondary := if_pos hsees
  obtain ⟨previous, hs⟩ := exists_of_kind_documents hl.kind
  obtain ⟨S, hmove, hfeed⟩ := Loop.Turn.move_documents
    (s := ⟨x, w₁.space.tree, .documents (w₁.visible g), g.scan⟩) hs rfl hl.fetch
  obtain ⟨x', w₂, hturn, hsec⟩ := turn_of_move hat.wellFormed hat.parent hbody hl.max (hl.feeds (by decide)) hmove hfeed
  rw [hvisible, Combined.next_fst hle, hplace, hsize] at hturn
  refine ⟨x', w₂, hturn, fun hlt => ?_⟩
  have hstep := Combined.stepped_of_lt (c := w₁.secondary) (by rw [hplace, hsize]; exact hlt)
  have hunread : w₁.secondary.tableAt? (i + 1) = s.secondary[i + 1]?.bind Document.table := by
    have hahead : w₁.secondary.Ahead (i + 1) := fun j hj => by
      rw [hcursor₁] at hj
      cases hj
      exact Nat.lt_succ_self _
    exact (hon.documents.unread _ hahead).trans (ho.unread _ (hon.documents.ahead _ hahead))
  rw [hplace, hunread] at hstep
  rw [hsec hsees, hvisible]
  exact hstep

/-- A visit to a loop over documents runs once for each document, in order: it is asked for a first run, and then
    for further ones until there is no document left.  The run `i` begins while the cursor stands on the document `i`,
    whose first record has been read. -/
structure OncePerDocument (o : Options) (s : Setup) (w : Walk) (f : Frame) (l : Loop) (w₁ : Walk) : Prop where
  documents : f.seesSecondary = true → (w₁.visible f).size = s.secondary.length
  first : ∃ l' w₂, turn f l w₁ = .ok (decide (0 < (w₁.visible f).size), l') w₂
  run : ∀ starts w', Underway o (fun _ _ => True) w f l w₁ starts w' → ∀ i (w₂ : Walk),
    starts[i]? = some w₂ → w₂.secondary.currentIndex = some i
      ∧ w₂.secondary.tableAt? i = (s.secondary[i]?.bind Document.table).map (·.read.2)
  inRun : ∀ starts w', Underway o (fun _ _ => True) w f l w₁ starts w' →
    starts.length ≤ s.secondary.length ∧ w'.secondary.cursor = some (starts.length - 1)
  further : ∀ starts w', Underway o (fun _ _ => True) w f l w₁ starts w' → ∀ g x w₂,
    AsksAgain o w' f.loops g x w₂ →
      ∃ x' w₃, turn g x w₂ = .ok (decide (starts.length < s.secondary.length), x') w₃

theorem oncePerDocument (hr : Reached o s w) (ha : AsksFirst o w n f l w₁) (hclear : Clear w₁.space.tree n)
    (hn : RunsThrough w₁.space.tree n "combined-xml") (hcur : (w₁.visible f).cursor = none) :
    OncePerDocument o s w f l w₁ := by
  obtain ⟨roots, hc⟩ := hr.coherent
  obtain ⟨root, more, p, hat, -, hsec, t, key, c, hdecl, hattrs⟩ := hc.atLoopStart ha
  have ho := hr.ordered
  have hl : Through .documents l := through_of_declared hn hattrs hdecl (fun strategy hs htype => by
    unfold Loop.strategyOf at hs
    rw [htype] at hs
    cases hs
    rfl) (by decide)
  have hplace : (w₁.visible f).place = 0 := by
    unfold Combined.place
    rw [hcur]
    rfl
  have hvisible : f.seesSecondary = true → w₁.visible f = w.secondary := fun hsees =>
    (show w₁.visible f = w₁.secondary from if_pos hsees).trans hsec
  have hsize : f.seesSecondary = true → (w₁.visible f).size = s.secondary.length := fun hsees => by
    rw [hvisible hsees]
    exact ho.size
  obtain ⟨previous, hs⟩ := exists_of_kind_documents hl.kind
  obtain ⟨S, hmove, hfeed⟩ := Loop.Turn.move_documents
    (s := ⟨l, w₁.space.tree, .documents (w₁.visible f), f.scan⟩) hs rfl hl.fetch
  rw [Combined.next_fst (by rw [hplace]; exact Nat.zero_le _), hplace] at hmove
  obtain ⟨l', w₂, hfirst, hstep⟩ := turn_of_move hat.wellFormed (by rw [hat.anchor]; exact hat.parent)
    (by rw [hat.anchor]; exact hn.body) hl.max (hl.feeds (by decide)) hmove hfeed
  -- where no document can be seen, no run begins
  have hsees : ∀ {starts w'}, Underway o (fun _ _ => True) w f l w₁ starts w' → f.seesSecondary = true := by
    intro starts w' h
    obtain ⟨x, w₃, hx⟩ := h.begins
    obtain ⟨hpos, -⟩ := decide_of_turn hx hfirst
    by_contra hno
    have hnil : w₁.visible f = .ofList [] := if_neg hno
    rw [hnil] at hpos
    exact absurd hpos (Nat.lt_irrefl 0)
  have hruns : ∀ starts w', Underway o (fun _ _ => True) w f l w₁ starts w' → ∀ i (w₂ : Walk),
      starts[i]? = some w₂ → i < s.secondary.length ∧ w₂.secondary.currentIndex = some i
        ∧ w₂.secondary.tableAt? i = (s.secondary[i]?.bind Document.table).map (·.read.2) := by
    intro starts w' h
    have hsees := hsees h
    refine h.starts_induct (fun ht => ?_) fun before hlast asks _ ht => ?_
    · obtain ⟨hpos, rfl⟩ := decide_of_turn ht hfirst
      have hst := Combined.stepped_of_lt (c := w₁.visible f) (by rw [hplace]; exact hpos)
      have hunread : (w₁.visible f).tableAt? 0 = s.secondary[0]?.bind Document.table := by
        rw [hvisible hsees]
        refine ho.unread 0 fun j hj => ?_
        rw [hvisible hsees, hj] at hcur
        cases hcur
      rw [hplace, hunread] at hst
      rw [hstep hsees]
      exact ⟨hsize hsees ▸ hpos, hst⟩
    · obtain ⟨hr₂, prior, last', x, heq, he, hx, hcur₂⟩ := before.engaged hr ha hsees hclear hl
      obtain ⟨hprior, hlast'⟩ := List.append_inj' heq rfl
      cases hprior
      cases hlast'
      have hcur₂ := hr₂.ordered.currentIndex_of_cursor hcur₂ hlast.1 hlast.2.1
      obtain ⟨x', w₅, hturn, hnext⟩ := documents_asked hr₂ he hx hcur₂ asks
      obtain ⟨hlt, rfl⟩ := decide_of_turn ht hturn
      exact ⟨hlt, hnext hlt⟩
  refine ⟨hsize, ⟨l', w₂, hfirst⟩, fun starts w' h i w₃ hi => (hruns starts w' h i w₃ hi).2, fun starts w' h => ?_,
    fun starts w' h g x w₃ asks => ?_⟩
  · obtain ⟨-, prior, last, x, heq, -, -, hcur'⟩ := h.engaged hr ha (hsees h) hclear hl
    obtain ⟨hlen, hlt, hlast, -⟩ := Underway.last heq (hruns starts w' h)
    rw [hlen, hcur']
    exact ⟨hlt, (Combined.cursor_of_currentIndex hlast).1⟩
  · obtain ⟨hr₂, prior, last, y, heq, he, hy, hcur'⟩ := h.engaged hr ha (hsees h) hclear hl
    obtain ⟨hlen, hlt, hlast, -⟩ := Underway.last heq (hruns starts w' h)
    obtain ⟨x', w₄, hturn, -⟩ := documents_asked hr₂ he hy (hr₂.ordered.currentIndex_of_cursor hcur' hlt hlast) asks
    rw [hlen]
    exact ⟨x', w₄, hturn⟩

/-! ## Records -/

/-- A loop over records that is asked for one more run reads the next record. -/
theorem records_asked {t : Table} (hr : Reached o s w) (he : Engaged w outer l) (hl : Through .records l)
    (hcur : w.secondary.currentIndex = some i) (ha : AsksAgain o w outer g x w₁)
    (ht : w₁.secondary.tableAt? i = some t) :
    ∃ x' w₂, turn g x w₁ = .ok (t.read.1, x') w₂ ∧ w₂.secondary.currentIndex = some i
      ∧ w₂.secondary.tableAt? i = some t.read.2 := by
  obtain ⟨roots, hc⟩ := hr.coherent
  obtain ⟨rfl, -, hbody, hon, hsees, root, q, hat⟩ := hc.engaged_asks he ha
  have hcur₁ : w₁.secondary.currentIndex = some i := by
    unfold Combined.currentIndex at hcur ⊢
    rw [hon.cursor id, hon.documents.size, hcur]
  obtain ⟨-, hi⟩ := Combined.cursor_of_currentIndex hcur₁
  have hvisible : w₁.visible g = w₁.secondary := if_pos hsees
  obtain ⟨previous, hs⟩ := exists_of_kind_records hl.kind
  obtain ⟨S, hmove, hfeed⟩ := Loop.Turn.move_records_again
    (s := ⟨x, w₁.space.tree, .documents (w₁.visible g), g.scan⟩) hs rfl (Nat.ne_of_gt hat.started) hl.fetch hl.max
    (by rw [hvisible]; exact hcur₁)
  obtain ⟨x', w₂, hturn, hsec⟩ := turn_of_move hat.wellFormed hat.parent hbody hl.max (hl.feeds (by decide)) hmove hfeed
  have hsec := hsec hsees
  rw [hvisible] at hturn hsec
  rw [ht] at hturn
  refine ⟨x', w₂, hturn, ?_, ?_⟩
  · rw [hsec, Combined.currentIndex_readAt, hcur₁]
  · rw [hsec, Combined.tableAt?_readAt hi, ht]
    rfl

/-- The table of the document `i` is the same. -/
def SameTable (i : Nat) (w w' : Walk) : Prop := w'.secondary.tableAt? i = w.secondary.tableAt? i

/-- A visit to a loop over records, while the document `i` is current, runs once for each of some rows, in order: it
    is asked for a first run, and then for further ones until there is no row left.  The run `k` begins with the row
    `k` as the current record of the document.  Nothing else reads records of the document from the beginning of a
    run to the moment when the loop is asked again. -/
structure OncePerRecord (o : Options) (w : Walk) (f : Frame) (l : Loop) (w₁ : Walk) (i : Nat) (rows : List Row) :
    Prop where
  first : ∃ l' w₂, turn f l w₁ = .ok (decide (0 < rows.length), l') w₂
  run : ∀ starts w', Underway o (SameTable i) w f l w₁ starts w' → ∀ k (w₂ : Walk),
    starts[k]? = some w₂ → w₂.secondary.currentIndex = some i ∧ ∃ t, w₂.secondary.tableAt? i = some t ∧ t.OnRow rows k
  inRun : ∀ starts w', Underway o (SameTable i) w f l w₁ starts w' →
    starts.length ≤ rows.length ∧ w'.secondary.cursor = some i
  further : ∀ starts last w', Underway o (SameTable i) w f l w₁ (starts ++ [last]) w' → ∀ g x w₂,
    AsksAgain o w' f.loops g x w₂ → SameTable i last w₂ →
      ∃ x' w₃, turn g x w₂ = .ok (decide (starts.length + 1 < rows.length), x') w₃

theorem oncePerRecord {given : Option Table} (hr : Reached o s w) (ha : AsksFirst o w n f l w₁)
    (hclear : Clear w₁.space.tree n) (hn : RunsThrough w₁.space.tree n "combined-record")
    (hcur : (w₁.visible f).currentIndex = some i) (ht : (w₁.visible f).tableAt? i = given.map (·.read.2)) :
    OncePerRecord o w f l w₁ i ((given.map Table.unread).getD []) := by
  obtain ⟨roots, hc⟩ := hr.coherent
  obtain ⟨root, more, p, hat, -, hsec, t, key, c, hdecl, hattrs⟩ := hc.atLoopStart ha
  have hl : Through .records l := through_of_declared hn hattrs hdecl (fun strategy hs htype => by
    unfold Loop.strategyOf at hs
    rw [htype] at hs
    cases hs
    rfl) (by decide)
  generalize hrows : (given.map Table.unread).getD [] = rows
  -- a document is current, so it can be seen
  have hsees : f.seesSecondary = true := by
    by_contra hno
    rw [show w₁.visible f = .ofList [] from if_neg hno] at hcur
    cases hcur
  have hvisible : w₁.visible f = w₁.secondary := if_pos hsees
  have hi : i < s.secondary.length := by
    obtain ⟨-, hlt⟩ := Combined.cursor_of_currentIndex hcur
    rw [hvisible, hsec, hr.ordered.size] at hlt
    exact hlt
  obtain ⟨previous, hs⟩ := exists_of_kind_records hl.kind
  obtain ⟨S, hmove, hfeed⟩ := Loop.Turn.move_records_first
    (s := ⟨l, w₁.space.tree, .documents (w₁.visible f), f.scan⟩) hs rfl hat.count hcur
  have hvalid : ((w₁.visible f).tableAt? i).any Table.valid = decide (0 < rows.length) := by
    rw [ht, ← hrows]
    cases given with
    | none => rfl
    | some t =>
      show t.read.2.valid = _
      rw [Table.valid_read, Table.read_fst_of_drop (k := 0) rfl]
      rfl
  rw [hvalid] at hmove
  obtain ⟨l', w₂, hfirst, hstep⟩ := turn_of_move hat.wellFormed (by rw [hat.anchor]; exact hat.parent)
    (by rw [hat.anchor]; exact hn.body) hl.max (hl.feeds (by decide)) hmove hfeed
  have hruns : ∀ starts w', Underway o (SameTable i) w f l w₁ starts w' → ∀ k (w₂ : Walk), starts[k]? = some w₂ →
      k < rows.length ∧ w₂.secondary.currentIndex = some i
        ∧ ∃ t, w₂.secondary.tableAt? i = some t ∧ t.OnRow rows k := by
    intro starts w' h
    refine h.starts_induct (fun ht' => ?_) fun before hlast asks kept ht' => ?_
    · obtain ⟨hpos, rfl⟩ := decide_of_turn ht' hfirst
      rw [hstep hsees]
      refine ⟨hpos, hcur, ?_⟩
      cases given with
      | none =>
        subst hrows
        cases hpos
      | some t =>
        subst hrows
        exact ⟨_, ht, Table.onRow_read (k := 0) rfl hpos⟩
    · obtain ⟨hr₂, prior, last', x, heq, he, hx, hcur₂⟩ := before.engaged hr ha hsees hclear hl
      obtain ⟨hprior, hlast'⟩ := List.append_inj' heq rfl
      cases hprior
      cases hlast'
      obtain ⟨-, hcurrent, t, htable, hunread, -⟩ := hlast
      have hcur₂ := hr₂.ordered.currentIndex_of_cursor hcur₂ hi hcurrent
      obtain ⟨x', w₅, hturn, hcur', htable'⟩ := records_asked hr₂ he hx hcur₂ asks (kept.trans htable)
      rw [Table.read_fst_of_drop hunread] at hturn
      obtain ⟨hlt, rfl⟩ := decide_of_turn ht' hturn
      exact ⟨hlt, hcur', _, htable', Table.onRow_read hunread hlt⟩
  refine ⟨⟨l', w₂, hfirst⟩, fun starts w' h k w₃ hk => (hruns starts w' h k w₃ hk).2, fun starts w' h => ?_,
    fun starts last w' h g x w₃ asks kept => ?_⟩
  · obtain ⟨-, prior, last, x, heq, -, -, hcur'⟩ := h.engaged hr ha hsees hclear hl
    obtain ⟨hlen, hlt, hlast, -⟩ := Underway.last heq (hruns starts w' h)
    rw [hlen, hcur']
    exact ⟨hlt, (Combined.cursor_of_currentIndex hlast).1⟩
  · obtain ⟨hr₂, prior, last', y, heq, he, hy, hcur'⟩ := h.engaged hr ha hsees hclear hl
    obtain ⟨hprior, hlast'⟩ := List.append_inj' heq rfl
    cases hprior
    cases hlast'
    obtain ⟨-, -, hlast, t, htable, hunread, -⟩ := Underway.last rfl (hruns _ w' h)
    obtain ⟨x', w₄, hturn, -⟩ := records_asked hr₂ he hy (hr₂.ordered.currentIndex_of_cursor hcur' hi hlast) asks
      (kept.trans htable)
    rw [Table.read_fst_of_drop hunread] at hturn
    exact ⟨x', w₄, hturn⟩

/-! ## Walks -/

/-- In every state that a walk reaches, a document that has the records of a secondary document is walked while the
    cursor stands on that one.  And a visit to a loop that finds nothing in its body that moves the cursor, and says
    nothing but its type, runs as often as it should: a loop over documents that is reached while the cursor stands
    before the first one runs once for each; and a loop over records, reached with the first record of the current
    document read, runs once for each of the records. -/
theorem secondary_documents_are_walked_once (h : Reached o s w) :
    (∀ f ∈ w.frames, ∀ i, f.source = .secondary i → w.secondary.cursor = some i)
    ∧ ∀ n f l w₁, AsksFirst o w n f l w₁ → Clear w₁.space.tree n →
      (RunsThrough w₁.space.tree n "combined-xml" → (w₁.visible f).cursor = none → OncePerDocument o s w f l w₁)
      ∧ ∀ i (given : Option Table), RunsThrough w₁.space.tree n "combined-record" →
        (w₁.visible f).currentIndex = some i → (w₁.visible f).tableAt? i = given.map (·.read.2) →
        OncePerRecord o w f l w₁ i ((given.map Table.unread).getD []) :=
  ⟨h.ordered.current, fun _ _ _ _ ha hclear => ⟨fun hn hcur => oncePerDocument h ha hclear hn hcur,
    fun _ _ hn hcur ht => oncePerRecord h ha hclear hn hcur ht⟩⟩

instance (t : Tree) (n : NodeId) (type : String) : Decidable (RunsThrough t n type) :=
  decidable_of_iff (t.attr? n "type" = some type ∧ t.attr? n "fetch" = none ∧ t.attr? n "max" = none
      ∧ t.attr? n "xmax" = none ∧ t.children n ≠ [])
    ⟨fun ⟨h₁, h₂, h₃, h₄, h₅⟩ => ⟨h₁, h₂, h₃, h₄, h₅⟩, fun h => ⟨h.type, h.fetch, h.max, h.xmax, h.body⟩⟩

/-- Where no node below is of the type, none in the body moves the cursor. -/
theorem clear_of_all {t : Tree} (hwf : t.WellFormed)
    (h : ((t.descendants n).all fun q => t.attr? q "type" != some "combined-xml") = true) : Clear t n := by
  intro q hq hne hm
  have hno := List.all_eq_true.mp h q (hwf.mem_descendants.mpr ⟨hq.under, hne⟩)
  rw [hm.type] at hno
  cases hno

/-- Whether the next round enters the loop of a node, and leads to something that passes a test. -/
def entersLoop (o : Options) (n : NodeId) (p : Frame → Loop → Walk → Bool) (w : Walk) : Bool :=
  Action.succeeds (rotate o w) fun _ w₁ =>
    match w₁.frames with
    | [] => false
    | f :: more => (takeRun f).any fun (r, g) =>
      let w₂ := { w₁ with frames := g :: more }
      r.next == some n && w₂.space.tree.name n == "repeat"
        && Action.succeeds (onTree (Loop.enter n r.key (w₂.visible g)) w₂) fun l w₃ => p g l w₃

theorem exists_asksFirst {p : Frame → Loop → Walk → Bool} (h : entersLoop o n p w = true) :
    ∃ f l w₁, AsksFirst o w n f l w₁ ∧ p f l w₁ = true := by
  obtain ⟨_, w₁, hrot, h⟩ := Action.succeeds_iff.mp h
  cases hf : w₁.frames with
  | nil =>
    rw [hf] at h
    cases h
  | cons f more =>
    rw [hf] at h
    obtain ⟨⟨r, g⟩, ht, h⟩ := (Option.any_eq_true _ _).mp h
    simp only [Bool.and_eq_true, beq_iff_eq] at h
    obtain ⟨⟨hn, hname⟩, h⟩ := h
    obtain ⟨l, w₃, hl, h⟩ := Action.succeeds_iff.mp h
    exact ⟨g, l, w₃, ⟨r, _, ⟨w₁, f, more, hrot, hf, ht, rfl⟩, hn, hname, hl⟩, h⟩

/-- Two documents, one of them with two records and one with none, and a loop over records in a loop over documents. -/
theorem secondary_documents_are_walked_once_in_two :
    let records : Element := .mk "repeat" [("type", "combined-record")] "" .none [.mk "nop" [] "" .none []]
    let documents : Element := .mk "repeat" [("type", "combined-xml")] "" .none [records]
    let layout : Element := .mk "layout" [] "" .none [documents]
    let table : Table := ⟨[("A", 0)], [⟨["1"], 2⟩, ⟨["2"], 3⟩], 0, false, 0, [[]]⟩
    let document : Document := ⟨.mk "layout" [] "" .none [], none, some table⟩
    let s : Setup := ⟨⟨layout, none, none⟩, [document, { document with table := none }], none, .memory, .zero,
      .stored [], .empty⟩
    ∃ o, (∃ w f l w₁, Reached o s w ∧ AsksFirst o w 1 f l w₁ ∧ OncePerDocument o s w f l w₁)
      ∧ ∃ w f l w₁, Reached o s w ∧ AsksFirst o w 2 f l w₁ ∧ OncePerRecord o w f l w₁ 0 table.rows := by
  intro records documents layout table document s
  let o : Options := .standard ⟨2000, 1, 1, 0, 0, 0, 0⟩
  have hdocuments : Action.succeeds (start o ⟨0, s.main.path⟩ (begin s)) (fun _ w => leadsTo o (entersLoop o 1 fun f _ w₁ =>
      ((w₁.space.tree.descendants 1).all fun q => w₁.space.tree.attr? q "type" != some "combined-xml")
        && decide (RunsThrough w₁.space.tree 1 "combined-xml") && (w₁.visible f).cursor == none) 0 w) = true := by
    decide +kernel
  have hrecords : Action.succeeds (start o ⟨0, s.main.path⟩ (begin s)) (fun _ w => leadsTo o (entersLoop o 2 fun f _ w₁ =>
      ((w₁.space.tree.descendants 2).all fun q => w₁.space.tree.attr? q "type" != some "combined-xml")
        && decide (RunsThrough w₁.space.tree 2 "combined-record") && (w₁.visible f).currentIndex == some 0
        && (w₁.visible f).tableAt? 0 == some table.read.2) 1 w) = true := by
    decide +kernel
  refine ⟨o, ?_, ?_⟩
  · obtain ⟨w, hw, hrun⟩ := exists_reached hdocuments
    obtain ⟨f, l, w₁, ha, hrun⟩ := exists_asksFirst hrun
    simp only [Bool.and_eq_true, beq_iff_eq, decide_eq_true_eq] at hrun
    obtain ⟨⟨hclear, hn⟩, hcur⟩ := hrun
    obtain ⟨_, hc⟩ := hw.coherent
    obtain ⟨_, _, _, hat, -⟩ := hc.atLoopStart ha
    exact ⟨w, f, l, w₁, hw, ha,
      ((secondary_documents_are_walked_once hw).2 1 f l w₁ ha (clear_of_all hat.wellFormed hclear)).1 hn hcur⟩
  · obtain ⟨w, hw, hrun⟩ := exists_reached hrecords
    obtain ⟨f, l, w₁, ha, hrun⟩ := exists_asksFirst hrun
    simp only [Bool.and_eq_true, beq_iff_eq, decide_eq_true_eq] at hrun
    obtain ⟨⟨⟨hclear, hn⟩, hcur⟩, htable⟩ := hrun
    obtain ⟨_, hc⟩ := hw.coherent
    obtain ⟨_, _, _, hat, -⟩ := hc.atLoopStart ha
    exact ⟨w, f, l, w₁, hw, ha, ((secondary_documents_are_walked_once hw).2 2 f l w₁ ha
      (clear_of_all hat.wellFormed hclear)).2 0 (some table) hn hcur htable⟩

end Walk

end Stencil
