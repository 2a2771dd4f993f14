/-
  Secondary documents are read in order.

  Loops move the cursor over the secondary documents forward only, and they read records of the document it
  stands on, so what is ahead of the cursor has not been read (`Combined.Onward`).  Only a loop over documents
  that moves on itself moves the cursor at all (`Loop.MovesCursor`).

  A secondary document is walked while the cursor stands on it.  The document that asks for it waits
  meanwhile, and no other one sees the cursor (`Reached.ordered`).
-/
import Stencil.Proofs.Walk.Asking
import Stencil.Proofs.Walk.Intact

set_option autoImplicit false

namespace Stencil

/-! ## The cursor -/

namespace Combined

variable {c c₁ c' : Combined} {i j : Nat}

/-- The cursor has not come to a place yet. -/
def Ahead (c : Combined) (j : Nat) : Prop := ∀ i, c.cursor = some i → i < j

/-- What some steps have done to secondary documents: there are as many, and those ahead of the cursor were
    ahead of it before and have not been read. -/
structure Onward (c c' : Combined) : Prop where
  size : c'.size = c.size
  ahead : ∀ j, c'.Ahead j → c.Ahead j
  unread : ∀ j, c'.Ahead j → c'.tableAt? j = c.tableAt? j

theorem Onward.refl (c : Combined) : Onward c c := ⟨rfl, fun _ h => h, fun _ _ => rfl⟩

theorem Onward.trans (h : Onward c c₁) (h' : Onward c₁ c') : Onward c c' where
  size := h'.size.trans h.size
  ahead := fun j hj => h.ahead j (h'.ahead j hj)
  unread := fun j hj => (h'.unread j hj).trans (h.unread j (h'.ahead j hj))

theorem onward_advance (c : Combined) : c.Onward c.advance := by
  have hentries : c.advance.entries = c.entries := by
    unfold advance
    split <;> split <;> rfl
  refine ⟨congrArg List.length hentries, fun j hj i hi => ?_, fun j _ => ?_⟩
  · rcases c.cursor_advance with h | h
    · exact hj i (h.trans hi)
    · rw [hi] at h
      exact Nat.lt_of_succ_lt (hj (i + 1) h)
  · unfold tableAt?
    rw [hentries]

theorem size_setTable (c : Combined) (i : Nat) (t : Table) : (c.setTable i t).size = c.size :=
  List.length_modify ..

/-- The tables of the other entries are not replaced. -/
theorem tableAt?_setTable_of_ne {t : Table} (h : i ≠ j) : (c.setTable i t).tableAt? j = c.tableAt? j := by
  show (List.modify _ _ _)[j]?.bind _ = _
  rw [List.getElem?_modify_ne _ _ h]
  rfl

theorem tableAt?_setTable {t : Table} (h : i < c.size) : (c.setTable i t).tableAt? i = some t := by
  show (List.modify _ _ _)[i]?.bind _ = _
  rw [List.getElem?_modify_eq, List.getElem?_eq_getElem h]
  rfl

theorem onward_setTable (t : Table) (h : c.cursor = some i) : c.Onward (c.setTable i t) where
  size := c.size_setTable i t
  ahead := fun _ hj => hj
  unread := fun _ hj => tableAt?_setTable_of_ne (Nat.ne_of_lt (hj i h))

theorem onward_readAt (h : c.cursor = some i) : c.Onward (c.readAt i).2 := by
  unfold readAt
  split
  · exact onward_setTable _ h
  · exact .refl c

theorem cursor_readAt (c : Combined) (i : Nat) : (c.readAt i).2.cursor = c.cursor := by
  unfold readAt
  split <;> rfl

theorem cursor_of_currentIndex (h : c.currentIndex = some i) : c.cursor = some i ∧ i < c.size := by
  obtain ⟨hc, hi⟩ := Option.filter_eq_some_iff.mp h
  exact ⟨hc, of_decide_eq_true hi⟩

end Combined

/-! ## Turns of loops -/

namespace Loop

/-- The loop moves the cursor over the secondary documents. -/
def MovesCursor (l : Loop) : Prop := (∃ previous, l.strategy = .documents previous) ∧ l.fetch = true

namespace Turn

variable {s s' : Turn} {more reached : Bool} {c : Combined}

/-- The loop `l` has moved forward on the secondary documents `c`; those it leaves are `feed`. -/
def Forward (l : Loop) (c : Combined) (feed : Feed) : Prop :=
  ∃ c', feed = .documents c' ∧ c.Onward c' ∧ (¬ l.MovesCursor → c'.cursor = c.cursor)

theorem forward_self (l : Loop) (c : Combined) : Forward l c (.documents c) := ⟨c, rfl, .refl c, fun _ => rfl⟩

theorem forward_readCurrent {r : Option Bool} (hf : s.feed = .documents c) (h : readCurrent c s = .ok r s') :
    ∃ c', s'.feed = .documents c' ∧ c.Onward c' ∧ c'.cursor = c.cursor := by
  unfold readCurrent at h
  cases hi : c.currentIndex with
  | none =>
    simp only [hi] at h
    obtain ⟨-, rfl⟩ := Action.pure_eq_ok.mp h
    exact ⟨c, hf, .refl c, rfl⟩
  | some i =>
    simp only [hi] at h
    rw [Action.modify_bind_eq_ok] at h
    obtain ⟨-, rfl⟩ := Action.pure_eq_ok.mp h
    exact ⟨_, rfl, Combined.onward_readAt (Combined.cursor_of_currentIndex hi).1, c.cursor_readAt i⟩

theorem forward_moveDocuments {previous : Option Nat} (hs : s.loop.strategy = .documents previous)
    (hf : s.feed = .documents c) (h : moveDocuments c previous s = .ok more s') : Forward s.loop c s'.feed := by
  rw [moveDocuments, Action.get_bind_eq_ok] at h
  split at h
  · rename_i hfetch
    have hmoves : s.loop.MovesCursor := ⟨⟨_, hs⟩, hfetch⟩
    dsimp only at h
    rw [Action.modify_bind_eq_ok] at h
    split at h
    · obtain ⟨r, s₁, h₁, h⟩ := Action.bind_eq_ok.mp h
      obtain ⟨-, rfl⟩ := Action.pure_eq_ok.mp h
      obtain ⟨c', hf', ho, -⟩ := forward_readCurrent (s := { s with feed := .documents c.next.2 }) rfl h₁
      exact ⟨c', hf', c.onward_advance.trans ho, fun hno => absurd hmoves hno⟩
    · obtain ⟨-, rfl⟩ := Action.pure_eq_ok.mp h
      exact ⟨c.advance, rfl, c.onward_advance, fun hno => absurd hmoves hno⟩
  · split at h
    · obtain ⟨-, rfl⟩ := Action.pure_eq_ok.mp h
      rw [hf]
      exact forward_self _ c
    · split at h
      · exact (Action.failAt_eq_ok.mp h).elim
      · rw [setLoop, Action.modify_bind_eq_ok] at h
        obtain ⟨-, rfl⟩ := Action.pure_eq_ok.mp h
        dsimp only
        rw [hf]
        exact forward_self _ c

theorem forward_moveRecords {previous : Option Int} (hf : s.feed = .documents c)
    (h : moveRecords c previous reached s = .ok more s') : Forward s.loop c s'.feed := by
  rw [moveRecords, Action.get_bind_eq_ok] at h
  have hstop : ∀ {s₁ : Turn}, s₁.feed = s.feed → (pure false : Action Turn Bool) s₁ = .ok more s' →
      Forward s.loop c s'.feed := by
    intro s₁ he hr
    obtain ⟨-, rfl⟩ := Action.pure_eq_ok.mp hr
    rw [he, hf]
    exact forward_self _ c
  cases hc : c.current? with
  | none =>
    simp only [hc] at h
    exact (Action.failAt_eq_ok.mp h).elim
  | some e =>
    simp only [hc] at h
    split at h
    · split at h
      · exact hstop rfl h
      · obtain ⟨r, s₁, h₁, h⟩ := Action.bind_eq_ok.mp h
        obtain ⟨-, rfl⟩ := Action.pure_eq_ok.mp h
        obtain ⟨c', hf', ho, hcur⟩ := forward_readCurrent hf h₁
        exact ⟨c', hf', ho, fun _ => hcur⟩
    · cases ht : e.table with
      | none =>
        simp only [ht] at h
        exact hstop rfl h
      | some t =>
        simp only [ht] at h
        split at h
        · exact hstop rfl h
        · split at h
          · exact (Action.failAt_eq_ok.mp h).elim
          · rw [setLoop, Action.modify_bind_eq_ok] at h
            obtain ⟨-, rfl⟩ := Action.pure_eq_ok.mp h
            dsimp only
            rw [hf]
            exact forward_self _ c

theorem forward_move (hf : s.feed = .documents c) (h : move s = .ok more s') : Forward s.loop c s'.feed := by
  rw [move, Action.get_bind_eq_ok] at h
  cases hs : s.loop.strategy <;> simp only [hs, hf] at h
  case documents previous => exact forward_moveDocuments hs hf h
  case records previous => exact forward_moveRecords hf h
  case counted => exact (Action.fail_eq_ok.mp h).elim

theorem restored_of_documents (hf : s.feed = .documents c) : s.restored = .documents c := by
  unfold restored
  split
  · rename_i h
    rw [hf] at h
    cases h
  · exact hf

/-- A turn of a loop moves the cursor forward, if at all. -/
theorem forward_next (hf : s.feed = .documents c) (h : next s = .ok more s') : Forward s.loop c s'.feed := by
  obtain ⟨moved, s₁, h₁, h⟩ := next_cases h
  have hm := forward_move hf h₁
  obtain ⟨c₁, hf₁, -⟩ := id hm
  rcases h with ⟨-, he, -⟩ | ⟨-, -, -, first, -, hr⟩
  · rw [he.feed, restored_of_documents hf₁, ← hf₁]
    exact hm
  · rw [(rest_of_runs hr).1]
    exact hm

theorem sameFeed_next (h : next s = .ok more s') : SameFeed s.feed s'.feed := by
  obtain ⟨moved, s₁, h₁, h⟩ := next_cases h
  refine (moved_move h₁).feed.trans ?_
  rcases h with ⟨-, he, -⟩ | ⟨-, -, -, first, -, hr⟩
  · rw [he.feed]
    exact sameFeed_restored s₁
  · rw [(rest_of_runs hr).1]
    exact .refl _

end Turn

end Loop

/-! ## Walks -/

namespace Walk

open Loop.Turn (Forward)

variable {t : Tree} {docs roots rs parents : List NodeId} {root p q n : NodeId} {r : Run} {f g : Frame}
  {more : List Frame} {w w₁ w' : Walk} {o : Options} {l l' : Loop} {outer : List Loop} {next : Bool} {key : String}
  {u : Unit}
  {even : Prop} {s : Setup} {progress : Progress}

/-- The secondary documents behind a turn of a loop. -/
theorem secondary_afterTurn (w : Walk) (f : Frame) (s : Loop.Turn) : (w.afterTurn f s).secondary =
    match s.feed with
    | .documents c => if f.seesSecondary then c else w.secondary
    | .records t => (w.setTable f.source t).secondary := by
  unfold afterTurn
  cases s.feed with
  | documents c => cases hs : f.seesSecondary <;> cases w.frames <;> rfl
  | records t =>
    dsimp only
    rw [setTable_rest, setTable_rest w]
    dsimp only
    cases w.frames <;> cases f.source <;> cases t <;> rfl

/-- A frame that reads the records of a secondary document does so while the cursor stands on the document. -/
def OnCurrent (w : Walk) (f : Frame) : Prop := ∀ i, f.source = .secondary i → w.secondary.cursor = some i

/-- What a step does to the secondary documents; `moves` says that it may move the cursor. -/
structure Onward (w : Walk) (moves : Prop) (w' : Walk) : Prop where
  documents : w.secondary.Onward w'.secondary
  cursor : ¬ moves → w'.secondary.cursor = w.secondary.cursor

theorem Onward.of_eq {moves : Prop} (h : w'.secondary = w.secondary) : Onward w moves w' :=
  ⟨h ▸ .refl _, fun _ => h ▸ rfl⟩

theorem Onward.trans {moves : Prop} (h : Onward w moves w₁) (h' : Onward w₁ moves w') : Onward w moves w' :=
  ⟨h.documents.trans h'.documents, fun hno => (h'.cursor hno).trans (h.cursor hno)⟩

theorem Onward.mono {moves moves' : Prop} (h : Onward w moves w') (hi : moves → moves') : Onward w moves' w' :=
  ⟨h.documents, fun hno => h.cursor fun hm => hno (hi hm)⟩

/-- A turn of a loop moves the cursor forward, if the loop moves it at all and its frame sees it. -/
theorem onward_turn (hcur : OnCurrent w f) (h : turn f l w = .ok (next, l') w') :
    Onward w (f.seesSecondary = true ∧ l.MovesCursor) w' := by
  obtain ⟨s, hs, -, rfl⟩ := turn_ok h
  have hsame := Loop.Turn.sameFeed_next hs
  by_cases hfeeds : l.feedsOnDocuments = true
  · have hfeed : w.feedOf f l = .documents (w.visible f) := if_pos hfeeds
    obtain ⟨c', hc', honward, hcursor⟩ := Loop.Turn.forward_next hfeed hs
    unfold visible at honward hcursor
    by_cases hsees : f.seesSecondary = true
    · rw [if_pos hsees] at honward hcursor
      refine ⟨?_, fun hno => ?_⟩ <;> rw [secondary_afterTurn, hc'] <;> simp only [hsees, if_true]
      · exact honward
      · exact hcursor fun hm => hno ⟨hsees, hm⟩
    · refine .of_eq ?_
      rw [secondary_afterTurn, hc']
      exact if_neg hsees
  · have hfeed : w.feedOf f l = .records (w.tableOf f.source) := if_neg hfeeds
    change Loop.SameFeed (w.feedOf f l) s.feed at hsame
    rw [hfeed] at hsame
    cases ht : s.feed with
    | documents c =>
      rw [ht] at hsame
      exact hsame.elim
    | records t =>
      have he : (w.afterTurn f s).secondary = (w.setTable f.source t).secondary := by
        rw [secondary_afterTurn, ht]
      unfold setTable at he
      split at he
      · exact .of_eq he
      · rename_i i t hsrc
        exact ⟨he ▸ Combined.onward_setTable t (hcur i hsrc), fun _ => he ▸ rfl⟩
      · exact .of_eq he

/-- Only the main document sees the secondary documents, and it has records of its own. -/
theorem Stack.source_of_sees (h : Stack t docs (f :: more) (root :: rs)) (hs : f.seesSecondary = true) :
    f.source = .main := by
  cases h with
  | main _ _ hfound howned hapart =>
    cases hsrc : f.source with
    | main => rfl
    | secondary i =>
      unfold rootOf at hfound
      rw [howned, hsrc] at hfound
      exact absurd (List.mem_of_getElem? hfound) hapart
  | «import» _ _ _ _ _ _ hn =>
    rw [hn] at hs
    cases hs

/-- A frame that has records of a secondary document does not see the cursor, which stays. -/
theorem Onward.onCurrent (h : Onward w (f.seesSecondary = true) w') (hmain : f.seesSecondary = true → f.source = .main)
    (hcur : OnCurrent w f) (hs : g.source = f.source) : OnCurrent w' g := by
  intro i hi
  rw [hs] at hi
  refine (h.cursor fun hsees => ?_).trans (hcur i hi)
  rw [hmain hsees] at hi
  cases hi

theorem Asking.secondary (h : Asking o w f more root p q l outer w₁) : w₁.secondary = w.secondary := by
  rw [h.up.rest]

/-- Asking the loops around a run moves the cursor forward, if the document sees it. -/
theorem RunEnded.onward (hrun : RunEnded w f more root p key parents)
    (hmain : f.seesSecondary = true → f.source = .main) (hcur : OnCurrent w f)
    (h : closeLoops o parents w = .ok u w') : Onward w (f.seesSecondary = true) w' := by
  -- a turn behind the loops that have been asked so far
  have hturn : ∀ {w₀ w₁ w₂ : Walk} {g : Frame} {p q : NodeId} {l l' : Loop} {outer : List Loop} {next : Bool},
      Onward w (f.seesSecondary = true) w₀ ∧ SameFrame f g → Asking o w₀ g more root p q l outer w₁ →
      turn g l w₁ = .ok (next, l') w₂ → Onward w (f.seesSecondary = true) w₂ := by
    intro w₀ w₁ w₂ g p q l l' outer next ⟨hon, hsame⟩ hask ht
    have hon₁ : Onward w (f.seesSecondary = true) w₁ := hon.trans (.of_eq hask.secondary)
    refine hon₁.trans ((onward_turn (hon₁.onCurrent hmain hcur hsame.source) ht).mono fun hm => ?_)
    rw [← hsame.sees]
    exact hm.1
  refine hrun.closeLoops_induct (P := fun w' g _ _ => Onward w (f.seesSecondary = true) w' ∧ SameFrame f g)
    ⟨.of_eq rfl, .refl f⟩ h (fun _ hP hask he => ⟨?_, ?_⟩) (fun _ hP _ => hP.1)
    (fun _ hP hask ht _ _ => (hturn hP hask ht).trans (.of_eq rfl)) fun _ hP hask ht hturned _ hd _ => ?_
  · refine (hturn hP hask he.turn).trans (.of_eq ?_)
    rw [dropLoop_ok he.turned he.dropped]
  · exact hP.2.trans ⟨rfl, rfl, rfl⟩
  · refine (hturn hP hask ht).trans (.of_eq ?_)
    rw [dropLoop_ok hturned hd]

/-! ## Visits -/

/-- The node of a loop that moves the cursor over the secondary documents. -/
structure MovesCursor (t : Tree) (n : NodeId) : Prop where
  name : t.name n = "repeat"
  type : t.attr? n "type" = some "combined-xml"
  fetch : Loop.flag? t n "fetch" ≠ .ok (some false)

theorem strategyOf_documents {c : Combined} {previous : Option Nat}
    (h : Loop.strategyOf t n c = .ok (.documents previous)) : t.attr? n "type" = some "combined-xml" := by
  unfold Loop.strategyOf at h
  split at h
  · cases h
  · cases h
  · rename_i htype
    exact htype
  · cases h
  · cases h

/-- A loop that moves the cursor has been declared so. -/
theorem movesCursor_of_declared {c : Combined} (hname : t.name n = "repeat")
    (h : Loop.declared t n key c = .ok l) (hm : l.MovesCursor) : MovesCursor t n := by
  have hd := Loop.declared_eq_ok h
  obtain ⟨⟨previous, hs⟩, hfetch⟩ := hm
  refine ⟨hname, strategyOf_documents (hs ▸ hd.strategy), fun hflag => ?_⟩
  obtain ⟨flag, hf, he⟩ := hd.fetch
  rw [hf] at hflag
  cases hflag
  rw [hfetch] at he
  cases he

theorem onward_startLoop (hcur : OnCurrent w f) (hname : w.space.tree.name n = "repeat")
    (h : startLoop f key n w = .ok u w') :
    Onward w (f.seesSecondary = true ∧ MovesCursor w.space.tree n) w' := by
  rw [startLoop, Action.get_bind_eq_ok] at h
  obtain ⟨l, w₁, h₁, h⟩ := Action.bind_eq_ok.mp h
  obtain ⟨t₁, ht₁, rfl⟩ := onTree_ok h₁
  obtain ⟨⟨next, l'⟩, w₂, h₂, h⟩ := Action.bind_eq_ok.mp h
  have hmoves := movesCursor_of_declared hname (Loop.enter_ok ht₁).1
  have hturn := onward_turn (w := { w with space := { w.space with tree := t₁ } }) hcur h₂
  have hon : Onward w (f.seesSecondary = true ∧ MovesCursor w.space.tree n) w₂ :=
    ⟨hturn.documents, fun hno => hturn.cursor fun hm => hno ⟨hm.1, hmoves hm.2⟩⟩
  cases next with
  | true =>
    have hw := modifyFrame_eq_ok.mp h
    refine hon.trans (.of_eq ?_)
    rw [hw]
    cases w₂.frames <;> rfl
  | false =>
    obtain ⟨-, rfl⟩ := Action.pure_eq_ok.mp h
    exact hon

/-- The document that an import leads into has the records of the frame, or it is the current one. -/
theorem source_of_enter {e : Entry} (h : visitImport o f n w = .ok (.enter e) w') :
    e.source = f.source ∨ ∃ i, e.source = .secondary i ∧ w.secondary.cursor = some i := by
  rw [visitImport, Action.get_bind_eq_ok] at h
  generalize w.space.tree.attr? n "type" = kind at h
  split at h
  · cases hi : (w.visible f).currentIndex with
    | none =>
      simp only [hi] at h
      exact (Action.failAt_eq_ok.mp h).elim
    | some i =>
      cases hc : (w.visible f).current? with
      | none =>
        simp only [hi, hc] at h
        exact (Action.failAt_eq_ok.mp h).elim
      | some c =>
        simp only [hi, hc] at h
        obtain ⟨_, w₁, -, h⟩ := Action.bind_eq_ok.mp h
        obtain ⟨he, -⟩ := Action.pure_eq_ok.mp h
        cases he
        refine .inr ⟨i, rfl, ?_⟩
        have hcur := (Combined.cursor_of_currentIndex hi).1
        unfold visible at hcur
        split at hcur
        · exact hcur
        · cases hcur
  · obtain ⟨d, w₁, -, h⟩ := Action.bind_eq_ok.mp h
    obtain ⟨_, w₂, -, h⟩ := Action.bind_eq_ok.mp h
    obtain ⟨he, -⟩ := Action.pure_eq_ok.mp h
    cases he
    exact .inl rfl
  · cases (Action.pure_eq_ok.mp h).1
  · exact (Action.failAt_eq_ok.mp h).elim

/-- A visit moves the cursor forward, if it is one to a loop that moves it. -/
theorem Visiting.onward {v : Visit} (h : Visiting w f more root rs p r n)
    (hrs : ∀ r ∈ rs, IsRoot w.space.tree r) (hdocs : ∀ d ∈ documents w, IsRoot w.space.tree d)
    (hsees : f.seesSecondary = true → rs = [] ∧ root ∉ documents w) (hcur : OnCurrent w f)
    (hv : Walk.visit o f r.key n w = .ok v w') :
    Onward w (f.seesSecondary = true ∧ MovesCursor w.space.tree n) w'
      ∧ ∀ e, v = .enter e → ∀ i, e.source = .secondary i → w'.secondary.cursor = some i := by
  rw [Walk.visit, Action.get_bind_eq_ok] at hv
  obtain ⟨tag, htag, hv⟩ := Action.ofExcept_bind_eq_ok.mp hv
  have hname := tagOf_ok htag
  cases tag with
  | item =>
    obtain ⟨_, w₁, h₁, hv⟩ := Action.bind_eq_ok.mp hv
    obtain ⟨_, w₂, h₂, hv⟩ := Action.bind_eq_ok.mp hv
    obtain ⟨rfl, rfl⟩ := Action.pure_eq_ok.mp hv
    obtain ⟨value, rfl⟩ := fillItem_ok h₁
    refine ⟨.of_eq ?_, fun e he => by cases he⟩
    rcases onSink_ok h₂ with ⟨-, rfl⟩ | ⟨s, j, -, -, rfl⟩ <;> rfl
  | items =>
    obtain ⟨⟨t, scan⟩, -, hv⟩ := Action.ofExcept_bind_eq_ok.mp hv
    obtain ⟨_, w₁, h₁, hv⟩ := Action.bind_eq_ok.mp hv
    obtain ⟨_, w₂, h₂, hv⟩ := Action.bind_eq_ok.mp hv
    obtain ⟨rfl, rfl⟩ := Action.pure_eq_ok.mp hv
    rw [modifyTree_eq_ok.mp h₁] at h₂
    have hw := modifyFrame_eq_ok.mp h₂
    simp only [h.frames] at hw
    exact ⟨.of_eq (by rw [hw]), fun e he => by cases he⟩
  | loop =>
    obtain ⟨_, w₁, h₁, hv⟩ := Action.bind_eq_ok.mp hv
    obtain ⟨rfl, rfl⟩ := Action.pure_eq_ok.mp hv
    exact ⟨onward_startLoop hcur hname h₁, fun e he => by cases he⟩
  | document =>
    obtain ⟨-, hrest, -⟩ := h.around_document hrs hdocs hsees hv
    have hsame : w'.secondary = w.secondary := by rw [hrest]
    refine ⟨.of_eq hsame, ?_⟩
    rintro e rfl i hi
    rw [hsame]
    rcases source_of_enter hv with he | ⟨j, hj, hc⟩
    · exact hcur i (he ▸ hi)
    · rw [hi] at hj
      cases hj
      exact hc
  | writer =>
    rw [visitWriter, Action.get_bind_eq_ok] at hv
    cases hs : w.sink with
    | none =>
      simp only [hs] at hv
      obtain ⟨_, w₁, h₁, hv⟩ := Action.bind_eq_ok.mp hv
      obtain ⟨rfl, rfl⟩ := Action.pure_eq_ok.mp hv
      have ho := sinkOpened h.wellFormed (h.atWriter hname) h₁
      exact ⟨.of_eq (by rw [ho.rest]), fun e he => by cases he⟩
    | some s =>
      simp only [hs] at hv
      obtain ⟨s', w₁, h₁, hv⟩ := Action.bind_eq_ok.mp hv
      have ht := taken_takeSink h.wellFormed h₁
      rw [Action.modify_bind_eq_ok] at hv
      obtain ⟨rfl, rfl⟩ := Action.pure_eq_ok.mp hv
      refine ⟨.of_eq ?_, fun e he => by cases he⟩
      show w₁.secondary = _
      rw [ht.rest]
  | nop =>
    obtain ⟨rfl, rfl⟩ := Action.pure_eq_ok.mp hv
    exact ⟨.of_eq rfl, fun e he => by cases he⟩

/-! ## Rounds -/

/-- What the walk has done to the secondary documents that it was given: there are as many, and those ahead of
    the cursor are as they were.  A frame that has records of one of them has those of the current one. -/
structure Ordered (s : Setup) (w : Walk) : Prop where
  size : w.secondary.size = s.secondary.length
  unread : ∀ j, w.secondary.Ahead j → w.secondary.tableAt? j = s.secondary[j]?.bind Document.table
  current : ∀ f ∈ w.frames, OnCurrent w f

theorem Ordered.of_onward (h : Ordered s w) (hon : w.secondary.Onward w'.secondary)
    (hframes : ∀ g ∈ w'.frames, OnCurrent w' g) : Ordered s w' where
  size := hon.size.trans h.size
  unread := fun j hj => (hon.unread j hj).trans (h.unread j (hon.ahead j hj))
  current := hframes

theorem Ordered.of_eq (h : Ordered s w) (hs : w'.secondary = w.secondary)
    (hframes : ∀ g ∈ w'.frames, ∃ f ∈ w.frames, g.source = f.source) : Ordered s w' := by
  refine h.of_onward (hs ▸ .refl _) fun g hg i hi => ?_
  obtain ⟨f, hf, he⟩ := hframes g hg
  rw [hs]
  exact h.current f hf i (he ▸ hi)

/-- The frames around the innermost one notice nothing of what is done in that one. -/
theorem Ordered.of_innermost (h : Ordered s w) (hs : Stack t docs w.frames roots) (hf : w.frames = f :: more)
    (hon : Onward w (f.seesSecondary = true) w') (hf' : w'.frames = g :: more) (hg : g.source = f.source) :
    Ordered s w' := by
  rw [hf] at hs
  obtain ⟨root, rs, rfl⟩ := hs.roots_cons
  have hcur : OnCurrent w f := h.current f (by rw [hf]; exact List.mem_cons_self)
  refine h.of_onward hon.documents fun f' hf'' => ?_
  rw [hf'] at hf''
  rcases List.mem_cons.mp hf'' with rfl | hm
  · exact hon.onCurrent hs.source_of_sees hcur hg
  · -- there are others around it only if it does not see the cursor
    have hno : ¬ f.seesSecondary = true := fun hsees => by
      rw [(hs.main_of_sees hsees).1] at hm
      cases hm
    intro i hi
    exact (hon.cursor hno).trans (h.current f' (by rw [hf]; exact List.mem_cons_of_mem _ hm) i hi)

/-- The next node is about to be visited, in the innermost document. -/
theorem Coherent.aboutToVisit (h : Coherent even w (root :: rs)) (hf : w.frames = f :: more)
    (ht : takeRun f = some (r, g)) (hn : r.next = some n) :
    ∃ p, Visiting { w with frames := g :: more } g more root rs p r n ∧ (∀ r ∈ rs, IsRoot w.space.tree r)
      ∧ (g.seesSecondary = true → rs = [] ∧ root ∉ documents w) := by
  obtain ⟨hsame, -, p, hrun, hidle⟩ := h.visiting hf ht
  have hs := h.stack
  rw [hf] at hs
  obtain ⟨hroot, -, hfresh, -⟩ := hs.head
  exact ⟨p, ⟨h.wellFormed, rfl, hidle, hroot, hfresh, hrun, hn⟩, fun r hm => hs.tail.isRoot hm,
    fun hsees => (hs.main_of_sees (hsame.sees.symm.trans hsees)).2⟩

theorem Coherent.secondary_rotate (hc : Coherent even w roots) (hr : Walk.rotate o w = .ok u w') :
    w'.secondary = w.secondary := by
  rcases hc.rotate_ok hr with ⟨rfl, -⟩ | ⟨n, r, f, more, -, ho⟩
  · rfl
  · rw [ho.rest]

theorem Coherent.ordered_leave (hc : Coherent even w (root :: rs)) (h : Ordered s w) (hf : w.frames = f :: more)
    (hl : Walk.leave o w = .ok u w') : Ordered s w' := by
  obtain ⟨w₁, -, hd, rfl⟩ := leave_ok hc.wellFormed hf hl
  refine h.of_eq ?_ fun g hg => ⟨g, by rw [hf]; exact List.mem_cons_of_mem _ hg, rfl⟩
  show w₁.secondary = w.secondary
  rw [hd.rest]

theorem secondary_resume (h : resume r n w = .ok u w') : w'.secondary = w.secondary := by
  rw [Action.modify_eq_ok.mp h]
  cases w.frames with
  | nil => rfl
  | cons f more =>
    dsimp only
    split <;> rfl

theorem secondary_enter {e : Entry} (h : enter o e w = .ok u w') : w'.secondary = w.secondary := by
  obtain ⟨d, k, t, -, -, rfl⟩ := enter_ok h
  rfl

/-- The loops around the innermost run are asked. -/
theorem Coherent.onward_closeLoops (hc : Coherent even w (root :: rs)) (hcur : OnCurrent w f)
    (hf : w.frames = f :: more) (ht : takeRun f = some (r, g))
    (hl : closeLoops o (w.space.tree.ancestors r.first) { w with frames := g :: more } = .ok u w') :
    Onward w (f.seesSecondary = true) w' := by
  obtain ⟨p, hended⟩ := hc.runEnded hf ht
  obtain ⟨hsame, -, -⟩ := hc.visiting hf ht
  have hs := hc.stack
  rw [hf] at hs
  have hon := hended.onward (fun hsees => hsame.source.trans (hs.source_of_sees (hsame.sees ▸ hsees)))
    (fun i hi => hcur i (hsame.source ▸ hi)) hl
  rw [hsame.sees] at hon
  exact ⟨hon.documents, hon.cursor⟩

/-- The next node of the innermost document is visited. -/
theorem Coherent.onward_visit {v : Visit} (hc : Coherent even w (root :: rs)) (hcur : OnCurrent w f)
    (hf : w.frames = f :: more) (ht : takeRun f = some (r, g)) (hn : r.next = some n)
    (hv : visit o g r.key n { w with frames := g :: more } = .ok v w₁) :
    Onward w (f.seesSecondary = true ∧ MovesCursor w.space.tree n) w₁
      ∧ ∀ e, v = .enter e → ∀ i, e.source = .secondary i → w₁.secondary.cursor = some i := by
  obtain ⟨hsame, -, -⟩ := hc.visiting hf ht
  obtain ⟨p, hvisiting, hrs, hsees⟩ := hc.aboutToVisit hf ht hn
  obtain ⟨hon, henter⟩ := hvisiting.onward hrs hc.docs hsees (fun i hi => hcur i (hsame.source ▸ hi)) hv
  rw [hsame.sees] at hon
  exact ⟨⟨hon.documents, hon.cursor⟩, henter⟩

theorem Coherent.ordered_closeLoops (hc : Coherent even w (root :: rs)) (h : Ordered s w)
    (hf : w.frames = f :: more) (ht : takeRun f = some (r, g))
    (hl : closeLoops o (w.space.tree.ancestors r.first) { w with frames := g :: more } = .ok u w') :
    Ordered s w' := by
  obtain ⟨p, hended⟩ := hc.runEnded hf ht
  obtain ⟨hsame, -, -⟩ := hc.visiting hf ht
  have hs := hc.stack
  rw [hf] at hs
  obtain ⟨-, -, hfresh, -⟩ := hs.head
  obtain ⟨g', hf', hsame', -⟩ := (asked_closeLoops hended hfresh hl).frame
  have hcur : OnCurrent w f := h.current f (by rw [hf]; exact List.mem_cons_self)
  exact h.of_innermost hc.stack hf (hc.onward_closeLoops hcur hf ht hl) hf' (hsame'.source.trans hsame.source)

theorem Coherent.ordered_advance (hc : Coherent even w (root :: rs)) (h : Ordered s w)
    (hf : w.frames = f :: more) (ht : takeRun f = some (r, g)) (hrot : w.rotation = none) (hn : r.next = some n)
    (ha : Walk.advance o g r n { w with frames := g :: more } = .ok progress w') : Ordered s w' := by
  obtain ⟨hsame, -, -⟩ := hc.visiting hf ht
  obtain ⟨v, w₁, h₁, ha⟩ := Action.bind_eq_ok.mp ha
  obtain ⟨_, w₂, h₂, ha⟩ := Action.bind_eq_ok.mp ha
  have hv := Action.locating_eq_ok.mp h₁
  obtain ⟨p, hvisited, -⟩ := hc.visited hf ht hrot hn hv
  obtain ⟨-, g', hf', hsame', -⟩ := hvisited.resume hn h₂
  obtain ⟨hon, henter⟩ := hc.onward_visit (h.current f (by rw [hf]; exact List.mem_cons_self)) hf ht hn hv
  have hsec := secondary_resume h₂
  have h₂' : Ordered s w₂ := h.of_innermost hc.stack hf
    ((hon.trans (.of_eq hsec)).mono fun hm => hm.1) hf' (hsame'.source.trans hsame.source)
  cases v with
  | done =>
    obtain ⟨-, rfl⟩ := Action.pure_eq_ok.mp ha
    exact h₂'
  | yield k =>
    obtain ⟨-, rfl⟩ := Action.pure_eq_ok.mp ha
    exact h₂'
  | enter e =>
    obtain ⟨_, w₃, h₃, ha⟩ := Action.bind_eq_ok.mp ha
    obtain ⟨-, rfl⟩ := Action.pure_eq_ok.mp ha
    obtain ⟨d, k, t, -, -, rfl⟩ := enter_ok h₃
    refine h₂'.of_onward (.refl _) fun f' hf' => ?_
    rcases List.mem_cons.mp hf' with rfl | hm
    · exact fun i hi => (congrArg Combined.cursor hsec).trans (henter e rfl i hi)
    · exact h₂'.current f' hm

theorem Coherent.ordered_round (hc : Coherent even w roots) (h : Ordered s w)
    (hr : Walk.round o w = .ok progress w') : Ordered s w' := by
  obtain ⟨w₁, h₁, hr⟩ := round_ok hr
  obtain ⟨hc₁, hframes, hrot⟩ := hc.rotate h₁
  have h₁ : Ordered s w₁ := h.of_eq (hc.secondary_rotate h₁) fun g hg => ⟨g, hframes ▸ hg, rfl⟩
  rcases hr with ⟨hf, hr⟩ | ⟨f, more, hf, hr⟩
  · rcases finish_ok hr with ⟨-, -, rfl⟩ | ⟨k, -, -, rfl⟩
    · exact h₁
    · rw [keep_rest]
      exact h₁.of_eq rfl fun g hg => ⟨g, hg, rfl⟩
  have hstack := hc₁.stack
  rw [hf] at hstack
  obtain ⟨root, rs, rfl⟩ := hstack.roots_cons
  rcases hr with ⟨-, -, hr⟩ | ⟨r, g, ht, ⟨n, hn, hr⟩ | ⟨-, -, hr⟩⟩
  · exact hc₁.ordered_leave h₁ hf hr
  · exact hc₁.ordered_advance h₁ hf ht hrot hn hr
  · exact hc₁.ordered_closeLoops h₁ hf ht hr

/-- Before a walk begins, the secondary documents are those that it is given, with their records. -/
theorem placeAll_tables {ds : List Document} {entries : List CombinedEntry} {t' : Tree}
    (h : placeAll t ds = (entries, t')) : entries.map CombinedEntry.table = ds.map Document.table := by
  induction ds generalizing t entries t' with
  | nil =>
    cases h
    rfl
  | cons d ds ih =>
    unfold placeAll at h
    cases h
    exact congrArg (d.table :: ·) (ih rfl)

theorem Ordered.start (h : Walk.start o ⟨0, s.main.path⟩ (begin s) = .ok u w) : Ordered s w := by
  rw [Walk.start, Action.modify_bind_eq_ok] at h
  obtain ⟨d, k, t, -, -, rfl⟩ := enter_ok h
  have htables : ((begin s).secondary.entries).map CombinedEntry.table = s.secondary.map Document.table :=
    placeAll_tables rfl
  refine ⟨?_, fun j _ => ?_, fun f hf i hi => ?_⟩
  · have hlen := congrArg List.length htables
    rw [List.length_map, List.length_map] at hlen
    exact hlen
  · have hj := congrArg (·[j]?) htables
    simp only [List.getElem?_map] at hj
    show ((begin s).secondary.entries[j]?).bind CombinedEntry.table = _
    cases hx : (begin s).secondary.entries[j]? <;> cases hy : s.secondary[j]? <;> rw [hx, hy] at hj <;>
      simp_all
  · cases List.mem_singleton.mp hf
    cases hi

/-- In every state that a walk reaches, the secondary documents have been read in order. -/
theorem Reached.ordered (h : Reached o s w) : Ordered s w := by
  induction h with
  | start h => exact .start h
  | round hb h ih =>
    obtain ⟨roots, hc⟩ := hb.coherent
    exact hc.ordered_round ih h

end Walk

end Stencil
