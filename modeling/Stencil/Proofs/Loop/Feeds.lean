/-
  What loops move on.

  Reading takes the first unread row of a table; the cursor over the secondary documents goes one entry on.  A loop
  over documents that fetches does both, and a loop over records finds the first record read and reads the others.
-/
import Stencil.Proofs.Walk.Forward

set_option autoImplicit false

namespace Stencil

/-! ## Records are read -/

namespace Table

variable {t : Table} {rows : List Row} {k : Nat}

theorem valid_read (t : Table) : t.read.2.valid = t.read.1 := by
  unfold read
  split <;> rfl

/-- Before the row `k` is read, reading succeeds if there is such a row. -/
theorem read_fst_of_drop (h : t.unread = rows.drop k) : t.read.1 = decide (k < rows.length) := by
  rw [read_fst, h]
  rcases Nat.lt_or_ge k rows.length with hlt | hge
  · rw [List.drop_eq_getElem_cons hlt]
    exact (decide_eq_true hlt).symm
  · rw [List.drop_eq_nil_of_le hge]
    exact (decide_eq_false (Nat.not_lt_of_le hge)).symm

/-- The table stands on the row `k` of some rows, and those behind it have not been read. -/
def OnRow (t : Table) (rows : List Row) (k : Nat) : Prop :=
  t.unread = rows.drop (k + 1) ∧ rows[k]?.map Row.fields = some t.current

theorem onRow_read (h : t.unread = rows.drop k) (hk : k < rows.length) : t.read.2.OnRow rows k := by
  refine ⟨?_, ?_⟩
  · rw [unread_read, h, List.tail_drop]
  · rw [current_read, h, List.drop_eq_getElem_cons hk, List.getElem?_eq_getElem hk]
    rfl

end Table

/-! ## The cursor moves on -/

namespace Combined

variable {c : Combined} {i : Nat}

/-- The entry that the cursor comes to next. -/
def place (c : Combined) : Nat := (c.cursor.map (· + 1)).getD 0

/-- The cursor has been moved on, and the first record there has been read. -/
def stepped (c : Combined) : Combined :=
  match c.advance.currentIndex with
  | some i => (c.advance.readAt i).2
  | none => c.advance

theorem size_advance (c : Combined) : c.advance.size = c.size := c.onward_advance.size

theorem tableAt?_advance (c : Combined) (i : Nat) : c.advance.tableAt? i = c.tableAt? i := by
  unfold advance tableAt?
  split <;> split <;> rfl

/-- There is an entry to come to, or the cursor goes behind the last one. -/
theorem currentIndex_advance (h : c.place ≤ c.size) :
    c.advance.currentIndex = if c.place < c.size then some c.place else none := by
  have hcursor : c.advance.cursor = some c.place ∨ c.size = 0 ∧ c.advance.cursor = none := by
    unfold advance place at *
    cases hc : c.cursor with
    | none =>
      by_cases h0 : c.size = 0
      · simp [h0, hc]
      · simp [h0]
    | some i =>
      rw [hc] at h
      simp only [Option.map_some, Option.getD_some] at h ⊢
      rw [if_pos (Nat.lt_of_succ_le h)]
      exact .inl rfl
  unfold currentIndex
  rw [size_advance]
  rcases hcursor with hc | ⟨h0, hc⟩
  · rw [hc, Option.filter_some]
    simp only [decide_eq_true_eq]
  · rw [hc, h0, if_neg (Nat.not_lt_zero _)]
    rfl

theorem next_fst (h : c.place ≤ c.size) : c.next.1 = decide (c.place < c.size) := by
  show c.advance.currentIndex.isSome = _
  rw [currentIndex_advance h]
  split <;> simp [*]

theorem tableAt?_readAt (h : i < c.size) : (c.readAt i).2.tableAt? i = (c.tableAt? i).map (·.read.2) := by
  unfold readAt
  cases ht : c.tableAt? i with
  | none => exact ht
  | some t => exact tableAt?_setTable h

theorem size_readAt (c : Combined) (i : Nat) : (c.readAt i).2.size = c.size := by
  unfold readAt
  split
  · exact size_setTable ..
  · rfl

theorem currentIndex_readAt (c : Combined) (i : Nat) : (c.readAt i).2.currentIndex = c.currentIndex := by
  unfold currentIndex
  rw [cursor_readAt, size_readAt]

/-- The entry that the cursor has come to is current, and its first record has been read. -/
theorem stepped_of_lt (h : c.place < c.size) : c.stepped.currentIndex = some c.place
    ∧ c.stepped.tableAt? c.place = (c.tableAt? c.place).map (·.read.2) := by
  have hi := currentIndex_advance (Nat.le_of_lt h)
  rw [if_pos h] at hi
  unfold stepped
  simp only [hi]
  rw [currentIndex_readAt, hi, tableAt?_readAt (by rw [size_advance]; exact h), tableAt?_advance]
  exact ⟨rfl, rfl⟩

end Combined

/-! ## Turns -/

namespace Loop.Turn

variable {s s₁ : Turn} {c c' : Combined} {p : NodeId} {moved : Bool} {i : Nat}

/-- A loop with a body and without a maximum that has moved on runs, and one that could not ends. -/
theorem next_of_move (hwf : s.tree.WellFormed) (hp : s.tree.parent? s.loop.anchor = some p)
    (hbody : s.tree.children s.loop.anchor ≠ []) (hmax : s.loop.max = none) (h : move s = .ok moved s₁)
    (hf : s₁.feed = .documents c) : ∃ s', next s = .ok moved s' ∧ s'.feed = .documents c := by
  have hm := moved_move h
  cases moved with
  | true =>
    rw [next_of_moved h]
    obtain ⟨more, s', hs'⟩ := exists_start (s := s₁) (by rw [hm.tree]; exact hwf)
      fun _ _ => ⟨p, by rw [hm.tree, hm.loop]; exact hp⟩
    rcases start_ok hs' with ⟨-, -, hno⟩ | ⟨rfl, -, first, -, hr⟩
    · rw [hm.tree, hm.loop, Tree.firstChild?, List.head?_eq_none_iff, hmax] at hno
      exact absurd hno (not_or.mpr ⟨hbody, Bool.false_ne_true⟩)
    · exact ⟨s', hs', by rw [(rest_of_runs hr).1, hf]⟩
  | false =>
    obtain ⟨s', hs', he⟩ := next_of_not_moved h
    exact ⟨s', hs', by rw [he.feed, restored_of_documents hf]⟩

theorem readCurrent_eq (hf : s.feed = .documents c) : ∃ s', readCurrent c s
    = .ok (c.currentIndex.bind fun i => (c.readAt i).1) s'
      ∧ s'.feed = .documents ((c.currentIndex.map fun i => (c.readAt i).2).getD c) := by
  unfold readCurrent
  cases c.currentIndex with
  | none => exact ⟨s, rfl, hf⟩
  | some i => exact ⟨_, rfl, rfl⟩

/-- A counted loop moves on the records of its document. -/
theorem move_counted {b : Bool} {table : Option Table} (hs : s.loop.strategy = .counted b) (hf : s.feed = .records table) :
    move s = moveCounted (s.loop.max.any (· ≤ s.loop.count)) s := by
  rw [move, Action.get_bind]
  simp only [hs, hf]

/-- A loop over documents that fetches moves the cursor on, and reads the first record there. -/
theorem move_documents {previous : Option Nat} (hs : s.loop.strategy = .documents previous)
    (hf : s.feed = .documents c) (hfetch : s.loop.fetch = true) :
    ∃ s', move s = .ok c.next.1 s' ∧ s'.feed = .documents c.stepped := by
  rw [move, Action.get_bind]
  simp only [hs, hf]
  rw [moveDocuments, Action.get_bind, if_pos hfetch]
  dsimp only
  rw [Action.modify_bind]
  have hmoved : c.next.1 = c.advance.currentIndex.isSome := rfl
  cases hi : c.advance.currentIndex with
  | none =>
    rw [hi] at hmoved
    rw [if_neg (by rw [hmoved]; exact Bool.false_ne_true)]
    refine ⟨_, rfl, ?_⟩
    unfold Combined.stepped
    rw [hi]
    rfl
  | some i =>
    rw [hi] at hmoved
    rw [if_pos (by rw [hmoved]; rfl)]
    obtain ⟨s', hr, hf'⟩ := readCurrent_eq (s := { s with feed := .documents c.next.2 }) (c := c.next.2) rfl
    refine ⟨s', (Action.bind_of_ok hr).trans rfl, ?_⟩
    rw [hf']
    unfold Combined.stepped
    rw [show c.next.2.currentIndex = some i from hi, hi]
    rfl

theorem current?_of_currentIndex (hi : c.currentIndex = some i) : ∃ e, c.current? = some e ∧ c.tableAt? i = e.table := by
  obtain ⟨-, hlt⟩ := Combined.cursor_of_currentIndex hi
  refine ⟨c.entries[i], ?_, ?_⟩
  · unfold Combined.current?
    rw [hi]
    exact List.getElem?_eq_getElem hlt
  · unfold Combined.tableAt?
    rw [List.getElem?_eq_getElem hlt]
    rfl

/-- The first run of a loop over records takes the record that has been read. -/
theorem move_records_first {previous : Option Int} (hs : s.loop.strategy = .records previous)
    (hf : s.feed = .documents c) (hcount : s.loop.count = 0) (hi : c.currentIndex = some i) :
    ∃ s', move s = .ok ((c.tableAt? i).any Table.valid) s' ∧ s'.feed = .documents c := by
  obtain ⟨e, he, htable⟩ := current?_of_currentIndex hi
  rw [move, Action.get_bind]
  simp only [hs, hf]
  rw [moveRecords, Action.get_bind]
  simp only [he, hcount, htable]
  rw [if_neg (fun h => h.1 rfl)]
  cases e.table with
  | none => exact ⟨s, rfl, hf⟩
  | some t =>
    simp only [Option.any_some]
    cases ht : t.valid with
    | false =>
      rw [if_pos (by rfl)]
      exact ⟨s, rfl, hf⟩
    | true =>
      rw [if_neg (by decide), if_neg (fun h => h.1 rfl)]
      exact ⟨_, rfl, hf⟩

/-- Each further run of a loop over records reads the next one. -/
theorem move_records_again {previous : Option Int} (hs : s.loop.strategy = .records previous)
    (hf : s.feed = .documents c) (hcount : s.loop.count ≠ 0) (hfetch : s.loop.fetch = true)
    (hmax : s.loop.max = none) (hi : c.currentIndex = some i) :
    ∃ s', move s = .ok ((c.tableAt? i).any (·.read.1)) s' ∧ s'.feed = .documents (c.readAt i).2 := by
  obtain ⟨e, he, -⟩ := current?_of_currentIndex hi
  rw [move, Action.get_bind]
  simp only [hs, hf]
  rw [moveRecords, Action.get_bind]
  simp only [he, hmax, Option.any_none, Bool.false_eq_true, if_false]
  rw [if_pos ⟨hcount, hfetch⟩]
  obtain ⟨s', hr, hf'⟩ := readCurrent_eq hf
  refine ⟨s', (Action.bind_of_ok hr).trans ?_, ?_⟩
  · show EStateM.Result.ok _ s' = _
    congr 1
    cases ht : c.tableAt? i <;> simp [Combined.readAt, hi, ht]
  · rw [hf', hi]
    rfl

end Loop.Turn

end Stencil
