/-
  Loops that are asked for a run beyond their maximum.

  A loop that has run often enough should end, and take nothing from what it moves on (`EndsInPlace`).  It depends on
  what it looks at first.  A counted loop looks at the maximum before it reads a record, and so does a loop over records
  that fetches.  A loop over documents that fetches moves the cursor before the maximum is looked at, so it takes a
  document that no run works on, unless there is none left.  And the loops that do not fetch fail before the maximum is
  looked at if nothing has moved on since their last run.

  `endsInPlace_iff` says for each of them when it ends as it should.
-/
import Stencil.Proofs.Loop.Feeds

set_option autoImplicit false

namespace Stencil

namespace Combined

variable {c : Combined}

theorem marks_advance (c : Combined) : c.advance.marks = c.marks := by
  unfold advance
  split <;> split <;> rfl

/-- A cursor that cannot move on stands on no entry, so nothing is read. -/
theorem supply_stepped_iff :
    (Feed.documents c.stepped).supply = (Feed.documents c).supply ↔ c.advance.cursor = c.cursor := by
  have hcursor : c.stepped.cursor = c.advance.cursor := by
    unfold stepped
    split
    · exact cursor_readAt ..
    · rfl
  constructor
  · intro h
    exact hcursor.symm.trans (congrArg Supply.cursor h)
  · intro h
    have hnone : c.advance.currentIndex = none := by
      rcases c.moves_advance with ⟨-, hnone⟩ | hlt
      · exact hnone
      · rw [h] at hlt
        exact absurd hlt (Nat.lt_irrefl _)
    have hstepped : c.stepped = c.advance := by
      unfold stepped
      rw [hnone]
    show (⟨none, _, _⟩ : Supply) = ⟨none, _, _⟩
    rw [hstepped, h, marks_advance]

end Combined

namespace Loop.Turn

variable {s : Turn} {c : Combined} {table : Option Table} {b : Bool} {m : Nat}

/-- One more call ends the loop, and the cursor stands where it stood, and as many rows are unread. -/
def EndsInPlace (s : Turn) : Prop := ∃ s', next s = .ok false s' ∧ s'.feed.supply = s.feed.supply

/-- The loop can look at what it moves on without a failure, and without taking anything from it. -/
def MovesInPlace (s : Turn) : Prop := ∃ more s₁, move s = .ok more s₁ ∧ s₁.feed.supply = s.feed.supply

/-- A loop that has run often enough begins no run, so all depends on how it moves on. -/
theorem endsInPlace_iff_movesInPlace (hmax : s.loop.max.any (· ≤ s.loop.count) = true) :
    EndsInPlace s ↔ MovesInPlace s := by
  have hthrough : ∀ {more s₁}, move s = .ok more s₁ → s₁.loop.max.any (· < s₁.loop.count + 1) = true := by
    intro more s₁ h
    rw [(moved_move h).loop]
    simpa [Nat.lt_succ_iff] using hmax
  constructor
  · rintro ⟨s', h, hsame⟩
    obtain ⟨more, s₁, hmove, ⟨-, he, -⟩ | ⟨hno, -⟩⟩ := next_cases h
    · exact ⟨more, s₁, hmove, by rw [← hsame, he.feed, supply_restored]⟩
    · cases hno
  · rintro ⟨more, s₁, hmove, hsame⟩
    have hended : ∃ s', next s = .ok false s' ∧ Ended s₁ s' := by
      cases more with
      | true =>
        rw [next_of_moved hmove]
        exact start_ends (.inr (hthrough hmove))
      | false => exact next_of_not_moved hmove
    obtain ⟨s', hs', he⟩ := hended
    exact ⟨s', hs', by rw [he.feed, supply_restored, hsame]⟩

/-! ## Strategies -/

/-- A counted loop saves a record at most. -/
theorem movesInPlace_counted (hs : s.loop.strategy = .counted b) (hf : s.feed = .records table)
    (hmax : s.loop.max.any (· ≤ s.loop.count) = true) : MovesInPlace s := by
  unfold MovesInPlace
  rw [move_counted hs hf, hmax, moveCounted, Action.get_bind]
  by_cases hagain : s.loop.count ≠ 0 ∧ s.loop.fetch
  · rw [if_pos hagain]
    by_cases hone : s.loop.count = 1
    · exact ⟨false, _, (congrFun (if_pos hone) s).trans rfl, (supply_save rfl).2⟩
    · exact ⟨false, s, (congrFun (if_neg hone) s).trans rfl, rfl⟩
  · rw [if_neg hagain]
    exact ⟨true, s, rfl, rfl⟩

/-- A loop over documents that fetches moves the cursor on, if it can. -/
theorem movesInPlace_documents_fetch {previous : Option Nat} (hs : s.loop.strategy = .documents previous)
    (hf : s.feed = .documents c) (hfetch : s.loop.fetch = true) : MovesInPlace s ↔ c.advance.cursor = c.cursor := by
  obtain ⟨s₁, hmove, hfeed⟩ := move_documents hs hf hfetch
  rw [← Combined.supply_stepped_iff]
  constructor
  · rintro ⟨more, s₂, hmove', hsame⟩
    rw [hmove] at hmove'
    cases hmove'
    rw [← hfeed, ← hf, hsame]
  · exact fun hsame => ⟨_, s₁, hmove, by rw [hfeed, hf, hsame]⟩

/-- A loop over documents that does not fetch fails if the cursor has not moved, unless it stands behind the last
    document. -/
theorem movesInPlace_documents {previous : Option Nat} (hs : s.loop.strategy = .documents previous)
    (hf : s.feed = .documents c) (hfetch : s.loop.fetch = false) (hcount : s.loop.count ≠ 0) :
    MovesInPlace s ↔ (previous = c.cursor → c.cursor = some c.size) := by
  unfold MovesInPlace
  rw [move, Action.get_bind]
  simp only [hs, hf]
  rw [moveDocuments, Action.get_bind, if_neg (by rw [hfetch]; exact Bool.false_ne_true)]
  by_cases hend : previous = some c.size ∧ c.cursor = some c.size
  · rw [if_pos hend]
    exact ⟨fun _ _ => hend.2, fun _ => ⟨false, s, rfl, by rw [hf]⟩⟩
  rw [if_neg hend]
  by_cases hstalled : previous = c.cursor
  · rw [if_pos ⟨hcount, hstalled⟩]
    constructor
    · rintro ⟨_, _, h, -⟩
      exact (Action.failAt_eq_ok.mp h).elim
    · exact fun h => absurd ⟨hstalled.trans (h hstalled), h hstalled⟩ hend
  · rw [if_neg fun h => hstalled h.2]
    exact ⟨fun _ h => absurd h hstalled, fun _ => ⟨true, _, rfl, by rw [← hf]⟩⟩

/-- A loop over records needs a current document.  If it does not fetch, it fails if no record has been read. -/
theorem movesInPlace_records {previous : Option Int} (hs : s.loop.strategy = .records previous)
    (hf : s.feed = .documents c) (hcount : s.loop.count ≠ 0) (hmax : s.loop.max.any (· ≤ s.loop.count) = true) :
    MovesInPlace s ↔ ∃ e, c.current? = some e
      ∧ (s.loop.fetch = false → ∀ t, e.table = some t → t.valid = true → previous ≠ some t.lastRead) := by
  unfold MovesInPlace
  rw [move, Action.get_bind]
  simp only [hs, hf]
  rw [moveRecords, Action.get_bind, hmax]
  cases hc : c.current? with
  | none =>
    constructor
    · rintro ⟨_, _, h, -⟩
      exact (Action.failAt_eq_ok.mp h).elim
    · rintro ⟨_, h, -⟩
      cases h
  | some e =>
    simp only [Option.some.injEq, exists_eq_left', if_true]
    by_cases hfetch : s.loop.fetch = true
    · rw [if_pos ⟨hcount, hfetch⟩, hfetch]
      exact ⟨fun _ h => (by cases h), fun _ => ⟨false, s, rfl, by rw [hf]⟩⟩
    rw [if_neg fun h => hfetch h.2]
    have hno : s.loop.fetch = false := Bool.eq_false_iff.mpr hfetch
    cases ht : e.table with
    | none => exact ⟨fun _ _ t h => (by cases h), fun _ => ⟨false, s, rfl, by rw [hf]⟩⟩
    | some t =>
      simp only [Option.some.injEq, forall_eq', hno, forall_const]
      cases hv : t.valid with
      | false => exact ⟨fun _ h => (by cases h), fun _ => ⟨false, s, rfl, by rw [hf]⟩⟩
      | true =>
        by_cases hstalled : previous = some t.lastRead
        · simp only [Bool.not_true, Bool.false_eq_true, if_false]
          rw [if_pos ⟨hcount, hstalled⟩]
          constructor
          · rintro ⟨_, _, h, -⟩
            exact (Action.failAt_eq_ok.mp h).elim
          · exact fun h => absurd hstalled (h trivial)
        · simp only [Bool.not_true, Bool.false_eq_true, if_false]
          rw [if_neg fun h => hstalled h.2]
          exact ⟨fun _ _ => hstalled, fun _ => ⟨true, _, rfl, by rw [← hf]⟩⟩

/-- What a loop has to find, when it has run often enough, to end as it should. -/
def Endable (s : Turn) : Prop :=
  match s.loop.strategy, s.feed with
  | .counted _, .records _ => True
  | .documents previous, .documents c =>
    if s.loop.fetch then c.advance.cursor = c.cursor else previous = c.cursor → c.cursor = some c.size
  | .records previous, .documents c =>
    ∃ e, c.current? = some e
      ∧ (s.loop.fetch = false → ∀ t, e.table = some t → t.valid = true → previous ≠ some t.lastRead)
  | _, _ => False

/-- A loop that has run as often as it may ends without taking anything from what it moves on exactly when it finds
    what it has to: a counted loop always does; a loop over documents that fetches does if the cursor cannot move on; a
    loop over records that fetches does if a document is current; and the loops that do not fetch do if something has
    moved on since their last run, or the cursor is behind the last document. -/
theorem endsInPlace_iff (hmax : s.loop.max = some m) (hm : 1 ≤ m) (hcount : m ≤ s.loop.count) :
    EndsInPlace s ↔ Endable s := by
  have hreached : s.loop.max.any (· ≤ s.loop.count) = true := by
    rw [hmax]
    exact decide_eq_true hcount
  have hstarted : s.loop.count ≠ 0 := by omega
  rw [endsInPlace_iff_movesInPlace hreached]
  have hwrong : ∀ x : Turn, move s = .error (.of (.wrongFeed (s.tree.describe s.loop.anchor))) x →
      ¬ MovesInPlace s := by
    rintro x h ⟨_, _, hmove, -⟩
    rw [h] at hmove
    cases hmove
  unfold Endable
  cases hs : s.loop.strategy <;> cases hf : s.feed <;> dsimp only
  case counted.records => exact iff_true_intro (movesInPlace_counted hs hf hreached)
  case documents.documents =>
    cases hfetch : s.loop.fetch with
    | true => exact movesInPlace_documents_fetch hs hf hfetch
    | false => exact movesInPlace_documents hs hf hfetch hstarted
  case records.documents => exact movesInPlace_records hs hf hstarted hreached
  all_goals
    refine iff_false_intro (hwrong s ?_)
    rw [move, Action.get_bind]
    simp only [hs, hf]
    rfl

/-- A loop over records that has read as many as it may, while more are left. -/
theorem endsInPlace_of_records :
    let table : Table := ⟨[("A", 0)], [⟨["1"], 2⟩, ⟨["2"], 3⟩], 1, true, 2, [["1"]]⟩
    let s : Turn := ⟨⟨.records none, 1, some 1, true, false, "", "", 1⟩,
      Tree.ofElement (.mk "layout" [] "" .none [.mk "repeat" [] "" .none [.mk "nop" [] "" .none []]]),
      .documents ⟨[⟨0, none, some table⟩], some 0⟩, []⟩
    s.loop.max = some 1 ∧ EndsInPlace s := by
  intro table s
  have hendable : Endable s := ⟨⟨0, none, some table⟩, rfl, fun h => (by cases h)⟩
  exact ⟨rfl, (endsInPlace_iff (m := 1) rfl (Nat.le_refl 1) (Nat.le_refl 1)).mpr hendable⟩

/-- A loop that may run for one of two documents takes the other one too. -/
theorem takes_a_document_too_many :
    let loop : Element := .mk "repeat" [("type", "combined-xml"), ("max", "1")] "" .none [.mk "nop" [] "" .none []]
    let t := Tree.ofElement (.mk "layout" [] "" .none [loop])
    let c : Combined := .ofList [⟨0, none, none⟩, ⟨0, none, none⟩]
    ∃ l t₀ s₁ s₂, enter 1 "" c t = .ok l t₀ ∧ next ⟨l, t₀, .documents c, []⟩ = .ok true s₁ ∧ s₁.loop.max = some 1
      ∧ s₁.loop.count = 1 ∧ s₁.feed.supply.cursor = some 0 ∧ next s₁ = .ok false s₂
      ∧ s₂.feed.supply.cursor = some 1 ∧ ¬ EndsInPlace s₁ := by
  intro loop t c
  have hruns : Action.succeeds (enter 1 "" c t) (fun l t₀ =>
      Action.succeeds (next ⟨l, t₀, .documents c, []⟩) fun more s₁ => more && s₁.loop.max == some 1
        && s₁.loop.count == 1 && s₁.feed.supply.cursor == some 0
        && Action.succeeds (next s₁) fun more s₂ => !more && s₂.feed.supply.cursor == some 1) = true := by
    decide +kernel
  obtain ⟨l, t₀, henter, hruns⟩ := Action.succeeds_iff.mp hruns
  obtain ⟨more, s₁, hfirst, hruns⟩ := Action.succeeds_iff.mp hruns
  simp only [Bool.and_eq_true, beq_iff_eq] at hruns
  obtain ⟨⟨⟨⟨rfl, hmax⟩, hcount⟩, hcursor⟩, hruns⟩ := hruns
  obtain ⟨more, s₂, hsecond, hruns⟩ := Action.succeeds_iff.mp hruns
  simp only [Bool.and_eq_true, Bool.not_eq_true', beq_iff_eq] at hruns
  obtain ⟨rfl, hcursor'⟩ := hruns
  refine ⟨l, t₀, s₁, s₂, henter, hfirst, hmax, hcount, hcursor, hsecond, hcursor', ?_⟩
  rintro ⟨s', hs', hsame⟩
  rw [hsecond] at hs'
  cases hs'
  rw [hsame, hcursor] at hcursor'
  cases hcursor'

end Loop.Turn

end Stencil
