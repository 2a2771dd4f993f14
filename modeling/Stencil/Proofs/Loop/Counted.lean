/-
  Loops that count.

  A counted loop runs up to its maximum.  If it fetches, the first run works on the record that is current, and each
  further one reads the next; so it runs once more than there are rows to read, unless the maximum comes first.

  The record from before the loop is saved when the second run is asked for, and then all runs read on top of it
  (`Counting`).  Whatever ends the loop takes that level away again.
-/
import Stencil.Proofs.Loop.Calls
import Stencil.Proofs.Loop.Feeds

set_option autoImplicit false

namespace Stencil

/-! ## Readings -/

namespace Table

variable {t : Table} {n : Nat}

/-- The table after some readings. -/
def reads (t : Table) (n : Nat) : Table := (fun t => t.read.2)^[n] t

theorem reads_succ (t : Table) (n : Nat) : t.reads (n + 1) = (t.reads n).read.2 := Function.iterate_succ_apply' ..

theorem columns_reads (t : Table) (n : Nat) : (t.reads n).columns = t.columns := by
  induction n with
  | zero => rfl
  | succ n ih =>
    rw [reads_succ, ← ih]
    unfold read
    split <;> rfl

theorem unread_reads (t : Table) (n : Nat) : (t.reads n).unread = t.unread.drop n := by
  induction n with
  | zero => rfl
  | succ n ih => rw [reads_succ, unread_read, ih, List.tail_drop]

/-- Readings touch no record but the current one. -/
theorem tail_stack_reads (t : Table) (n : Nat) : (t.reads n).stack.tail = t.stack.tail := by
  induction n with
  | zero => rfl
  | succ n ih =>
    rw [reads_succ, ← ih]
    unfold read
    split <;> rfl

theorem onRow_reads (h : n < t.unread.length) : (t.reads (n + 1)).OnRow t.unread n := by
  rw [reads_succ]
  exact onRow_read (t.unread_reads n) h

/-- The table as the run `i` of a counted loop sees it: the first run sees the current record, and if the loop
    fetches, each further one sees the next unread one. -/
structure Shown (fetch : Bool) (i : Nat) (t t' : Table) : Prop where
  columns : t'.columns = t.columns
  current : if fetch then (t.current :: t.unread.map Row.fields)[i]? = some t'.current else t'.current = t.current
  unread : t'.unread = if fetch then t.unread.drop i else t.unread

/-- Rows have been read, but the current record and those that are saved are what they were. -/
structure Consumed (rows : Nat) (t t' : Table) : Prop where
  columns : t'.columns = t.columns
  stack : t'.stack = t.stack
  unread : t'.unread = t.unread.drop rows

theorem Consumed.refl (t : Table) : Consumed 0 t t := ⟨rfl, rfl, rfl⟩

theorem consumed_reads (t : Table) (n : Nat) : Consumed n t (t.push.reads n).pop where
  columns := columns_reads t.push n
  stack := tail_stack_reads t.push n
  unread := unread_reads t.push n

/-- A reading that finds no row consumes none. -/
theorem consumed_reads_of_le {m : Nat} (h : t.unread.length ≤ n) (hm : n ≤ m) : Consumed n t (t.push.reads m).pop where
  columns := columns_reads t.push m
  stack := tail_stack_reads t.push m
  unread := by
    refine (unread_reads t.push m).trans ?_
    rw [unread_push, List.drop_eq_nil_of_le h, List.drop_eq_nil_of_le (Nat.le_trans h hm)]

/-- The table while a counted loop runs for the `k`-th time. -/
def fetched (fetch : Bool) (k : Nat) : Table → Table := if fetch ∧ 2 ≤ k then fun t => t.push.reads (k - 1) else id

theorem shown_fetched {fetch : Bool} (h : fetch = true → n ≤ t.unread.length) :
    Shown fetch n t (fetched fetch (n + 1) t) := by
  unfold fetched
  cases fetch with
  | false => exact ⟨rfl, rfl, rfl⟩
  | true =>
    cases n with
    | zero => exact ⟨rfl, rfl, rfl⟩
    | succ n =>
      have hlt : n < t.push.unread.length := h rfl
      rw [if_pos ⟨rfl, Nat.le_add_left 2 n⟩]
      obtain ⟨hunread, hcurrent⟩ := onRow_reads hlt
      refine ⟨columns_reads .., ?_, hunread⟩
      rw [if_pos rfl, List.getElem?_cons_succ, List.getElem?_map]
      exact hcurrent

end Table

namespace Loop

/-- How often a counted loop runs, if that many rows are unread. -/
def runsOf (max : Option Nat) (fetch : Bool) (rows : Nat) : Nat :=
  if fetch then max.elim (rows + 1) (min · (rows + 1)) else max.getD 0

theorem lt_runsOf {max : Option Nat} {fetch : Bool} {rows k : Nat} (h : max ≠ none ∨ fetch = true) :
    k < runsOf max fetch rows ↔ max.any (· < k + 1) = false ∧ (fetch = true → k ≤ rows) := by
  unfold runsOf
  cases fetch with
  | false =>
    obtain ⟨m, rfl⟩ := Option.ne_none_iff_exists'.mp (h.resolve_right Bool.false_ne_true)
    rw [if_neg Bool.false_ne_true, Option.getD_some, Option.any_some, decide_eq_false_iff_not]
    exact ⟨fun hk => ⟨by omega, fun hno => (by cases hno)⟩, fun hk => by omega⟩
  | true =>
    rw [if_pos rfl]
    cases max with
    | none => exact ⟨fun hk => ⟨rfl, fun _ => Nat.le_of_lt_succ hk⟩, fun hk => Nat.lt_succ_of_le (hk.2 rfl)⟩
    | some m =>
      rw [Option.elim_some, Option.any_some, decide_eq_false_iff_not, Nat.lt_min]
      exact ⟨fun hk => ⟨by omega, fun _ => by omega⟩, fun hk => ⟨by omega, Nat.lt_succ_of_le (hk.2 rfl)⟩⟩

namespace Turn

variable {s₀ s s' : Turn} {table : Option Table} {k : Nat}

/-! ## The state before each call -/

/-- A counted loop that works on a table has run `k` times since the state `s₀`. -/
structure Counting (s₀ : Turn) (table : Option Table) (k : Nat) (s : Turn) : Prop where
  loop : s.loop = { s₀.loop with
    strategy := .counted (s₀.loop.fetch && decide (2 ≤ k)), count := k, anchor := s.loop.anchor }
  feed : s.feed = .records (table.map (Table.fetched s₀.loop.fetch k))
  scan : s.scan = s₀.scan
  wellFormed : s.tree.WellFormed
  body : s.tree.children s.loop.anchor ≠ []
  parent? : s.tree.parent? s.loop.anchor = s₀.tree.parent? s₀.loop.anchor
  nextSibling? : s.tree.nextSibling? s.loop.anchor = s₀.tree.nextSibling? s₀.loop.anchor

/-- The state with the record from before the loop saved, and `n` rows read on top of it. -/
def onLevel (s : Turn) (table : Option Table) (n : Nat) : Turn :=
  { s with
    loop := { s.loop with strategy := .counted true }
    feed := .records (table.map fun t => t.push.reads n) }

theorem Counting.strategy (h : Counting s₀ table k s) :
    s.loop.strategy = .counted (s₀.loop.fetch && decide (2 ≤ k)) := by
  rw [h.loop]

theorem Counting.count (h : Counting s₀ table k s) : s.loop.count = k := by
  rw [h.loop]

theorem Counting.fetch (h : Counting s₀ table k s) : s.loop.fetch = s₀.loop.fetch := by
  rw [h.loop]

theorem Counting.max (h : Counting s₀ table k s) : s.loop.max = s₀.loop.max := by
  rw [h.loop]

/-- The record from before the loop is saved once, when the loop is asked for its second run. -/
theorem Counting.saved (h : Counting s₀ table k s) (hk : k ≠ 0) (hfetch : s₀.loop.fetch = true) (x : Action Turn Bool) :
    (if s.loop.count = 1 then do save; x else x) s = x (s.onLevel table (k - 1)) := by
  have hfeed := h.feed
  unfold Table.fetched at hfeed
  rw [h.count]
  split
  · rename_i hone
    subst hone
    rw [if_neg (fun htwo => absurd htwo.2 (by decide)), Option.map_id] at hfeed
    rw [save, Action.modify_bind, hfeed]
    cases table <;> rfl
  · rename_i hone
    have hlevel : s = s.onLevel table (k - 1) := by
      have hstrategy := h.strategy
      have htwo : 2 ≤ k := by omega
      simp only [hfetch, htwo, decide_true, Bool.and_self, and_self, if_true] at hstrategy hfeed
      unfold onLevel
      rw [← hstrategy, ← hfeed]
    exact congrArg x hlevel

theorem readRecord_onLevel (s : Turn) (table : Option Table) (n : Nat) :
    readRecord (s.onLevel table n) = .ok (table.any fun t => decide (n < t.unread.length)) (s.onLevel table (n + 1)) := by
  cases table with
  | none => rfl
  | some t =>
    have hread : (t.push.reads n).read.1 = decide (n < t.unread.length) := Table.read_fst_of_drop (t.push.unread_reads n)
    show EStateM.Result.ok (t.push.reads n).read.1 _ = .ok (decide (n < t.unread.length)) _
    rw [hread]
    unfold onLevel
    simp only [Option.map_some, Table.reads_succ]

/-! ## Moving on -/

/-- The first run, and every run of a loop that does not fetch, takes things as they are. -/
theorem Counting.move_idle (h : Counting s₀ table k s) (hidle : k = 0 ∨ s₀.loop.fetch = false) :
    move s = .ok true s := by
  rw [move_counted h.strategy h.feed, moveCounted, Action.get_bind, if_neg]
  · rfl
  · rw [h.count, h.fetch]
    rintro ⟨hk, hfetch⟩
    rcases hidle with hno | hno
    · exact hk hno
    · rw [hno] at hfetch
      cases hfetch

/-- A further run of a loop that fetches reads the next row, unless the maximum is reached. -/
theorem Counting.move_fetch (h : Counting s₀ table k s) (hk : k ≠ 0) (hfetch : s₀.loop.fetch = true) :
    move s = if s₀.loop.max.any (· ≤ k) then .ok false (s.onLevel table (k - 1))
      else .ok (table.any fun t => decide (k - 1 < t.unread.length)) (s.onLevel table k) := by
  rw [move_counted h.strategy h.feed, moveCounted, Action.get_bind,
    if_pos ⟨by rw [h.count]; exact hk, by rw [h.fetch]; exact hfetch⟩]
  refine (h.saved hk hfetch _).trans ?_
  rw [h.max, h.count]
  split
  · rfl
  · rw [readRecord_onLevel, Nat.sub_add_cancel (Nat.one_le_iff_ne_zero.mpr hk)]

/-- The number of rows that a loop can read. -/
def rowsOf (table : Option Table) : Nat := ((table.map Table.unread).getD []).length

/-- A loop that is not through moves on, and comes to the next record. -/
theorem Counting.exists_moved (h : Counting s₀ table k s) (hmax : s₀.loop.max.any (· < k + 1) = false)
    (hrows : s₀.loop.fetch = true → k ≤ rowsOf table) : ∃ s₁, move s = .ok true s₁
      ∧ s₁.loop.strategy = .counted (s₀.loop.fetch && decide (2 ≤ k + 1))
      ∧ s₁.feed = .records (table.map (Table.fetched s₀.loop.fetch (k + 1))) := by
  by_cases hidle : k = 0 ∨ s₀.loop.fetch = false
  · refine ⟨s, h.move_idle hidle, ?_, ?_⟩
    · rw [h.strategy]
      rcases hidle with rfl | hno
      · rfl
      · rw [hno, Bool.false_and, Bool.false_and]
    · rw [h.feed]
      unfold Table.fetched
      rcases hidle with rfl | hno
      · rw [if_neg (by simp), if_neg (by simp)]
      · rw [hno]
        simp
  · obtain ⟨hk, hno⟩ := not_or.mp hidle
    have hfetch : s₀.loop.fetch = true := by simpa using hno
    have htwo : 2 ≤ k + 1 := by omega
    have hreached : ¬ s₀.loop.max.any (· ≤ k) = true := by
      rw [← Bool.not_eq_true] at hmax
      simpa [Nat.lt_succ_iff] using hmax
    have hread : (table.any fun t => decide (k - 1 < t.unread.length)) = true := by
      have hrows := hrows hfetch
      cases table with
      | none => exact absurd (Nat.le_zero.mp hrows) hk
      | some t =>
        have : t.unread.length = rowsOf (some t) := rfl
        exact decide_eq_true (by omega)
    have hmove := h.move_fetch hk hfetch
    rw [if_neg hreached, hread] at hmove
    refine ⟨_, hmove, ?_, ?_⟩
    · rw [hfetch, decide_eq_true htwo]
      rfl
    · unfold Table.fetched
      rw [if_pos ⟨hfetch, htwo⟩]
      rfl

/-! ## One call -/

/-- The positions of the body have been taken off the scan. -/
def Popped (s s' : Turn) : Prop := s' = { s with scan := s.scan.tail }

/-- A loop that is not through begins its next run. -/
theorem Counting.begins (h : Counting s₀ table k s) (hends : s₀.loop.max ≠ none ∨ s₀.loop.fetch = true)
    (hcopy : s₀.loop.unrolling = true → 0 < k → ∃ p, s₀.tree.parent? s₀.loop.anchor = some p)
    (hk : k < runsOf s₀.loop.max s₀.loop.fetch (rowsOf table)) :
    ∃ s' s'', next s = .ok true s' ∧ s'.feed = .records (table.map (Table.fetched s₀.loop.fetch (k + 1)))
      ∧ Popped s' s'' ∧ Counting s₀ table (k + 1) s'' := by
  obtain ⟨hmax, hrows⟩ := (lt_runsOf hends).mp hk
  obtain ⟨s₁, hmove, hstrategy, hfeed⟩ := h.exists_moved hmax hrows
  have hm := moved_move hmove
  have hloop : s₁.loop = { s.loop with strategy := .counted (s₀.loop.fetch && decide (2 ≤ k + 1)) } := by
    rw [hm.loop, hstrategy]
  have hanchor : s₁.loop.anchor = s.loop.anchor := by rw [hloop]
  obtain ⟨s', hs', hb⟩ := exists_begun (s := s₁) (by rw [hm.tree]; exact h.wellFormed)
    (by rw [hm.tree, hanchor]; exact h.body)
    (by rw [hm.tree, hanchor, h.parent?, hloop, h.loop]; exact hcopy)
    (by rw [hloop, h.loop]; exact hmax)
  refine ⟨s', _, ?_, hb.feed.trans hfeed, rfl, ?_, hb.feed.trans hfeed, ?_, hb.wellFormed, hb.body, ?_, ?_⟩
  · rw [next_of_moved hmove]
    exact hs'
  · show s'.loop = _
    rw [hb.loop, hloop, h.loop]
  · obtain ⟨first, hscan, -⟩ := hb.begins
    show s'.scan.tail = _
    rw [hscan, List.tail_cons, hm.scan, h.scan]
  · exact hb.parent?.trans (by rw [hm.tree, hanchor, h.parent?])
  · exact hb.nextSibling?.trans (by rw [hm.tree, hanchor, h.nextSibling?])

/-- Behind the loop stands what stood behind it before its first run. -/
theorem Counting.behind (h : Counting s₀ table k s) {s₁ : Turn} (hm : Moved s s₁) : s₁.behind = s₀.behind := by
  have hanchor : s₁.loop.anchor = s.loop.anchor := by rw [hm.loop]
  have hkey : s₁.loop.key = s₀.loop.key := by rw [hm.loop, h.loop]
  unfold Turn.behind
  rw [hm.tree, hanchor, h.nextSibling?, hkey, hm.scan, h.scan]

/-- A loop that has not read anything ends at its maximum. -/
theorem Counting.ends_idle (h : Counting s₀ table k s) (hidle : k = 0 ∨ s₀.loop.fetch = false)
    (hmax : s₀.loop.max.any (· < k + 1) = true) :
    ∃ s', next s = .ok false s' ∧ s'.scan = s₀.behind ∧ s'.feed = .records table := by
  obtain ⟨s', hs', he⟩ := start_ends (s := s) (.inr (by rw [h.max, h.count]; exact hmax))
  refine ⟨s', ?_, he.scan.trans (h.behind (.refl s)), ?_⟩
  · rw [next_of_moved (h.move_idle hidle)]
    exact hs'
  · have hlow : (s₀.loop.fetch && decide (2 ≤ k)) = false := by
      rcases hidle with rfl | hno
      · exact Bool.and_false _
      · rw [hno, Bool.false_and]
    have hno : ¬ (s₀.loop.fetch = true ∧ 2 ≤ k) := by simpa using hlow
    rw [he.feed]
    unfold restored
    rw [h.strategy, h.feed, hlow, Table.fetched, if_neg hno, Option.map_id]
    rfl

/-- A loop that reads ends at its maximum, or when it finds no row. -/
theorem Counting.ends_reading (h : Counting s₀ table k s) (hk : k ≠ 0) (hfetch : s₀.loop.fetch = true)
    (hthrough : s₀.loop.max.any (· ≤ k) = true ∨ rowsOf table = k - 1) :
    ∃ s' table', next s = .ok false s' ∧ s'.scan = s₀.behind ∧ s'.feed = .records table'
      ∧ Option.Rel (Table.Consumed (k - 1)) table table' := by
  have hmove := h.move_fetch hk hfetch
  by_cases hreached : s₀.loop.max.any (· ≤ k) = true
  · rw [if_pos hreached] at hmove
    obtain ⟨s', hs', he⟩ := next_of_not_moved hmove
    refine ⟨s', _, hs', he.scan.trans (h.behind (moved_move hmove)), he.feed, ?_⟩
    cases table with
    | none => exact .none
    | some t => exact .some (Table.consumed_reads t (k - 1))
  · have hrows := hthrough.resolve_left hreached
    have hread : (table.any fun t => decide (k - 1 < t.unread.length)) = false := by
      cases table with
      | none => rfl
      | some t => exact decide_eq_false (Nat.not_lt_of_le (Nat.le_of_eq hrows))
    rw [if_neg hreached, hread] at hmove
    obtain ⟨s', hs', he⟩ := next_of_not_moved hmove
    refine ⟨s', _, hs', he.scan.trans (h.behind (moved_move hmove)), he.feed, ?_⟩
    cases table with
    | none => exact .none
    | some t => exact .some (Table.consumed_reads_of_le (Nat.le_of_eq hrows) (Nat.sub_le k 1))

/-- A loop that is through ends.  The walk goes on behind it, and the record from before it is the current one. -/
theorem Counting.ends (h : Counting s₀ table k s) (hends : s₀.loop.max ≠ none ∨ s₀.loop.fetch = true)
    (hk : k = runsOf s₀.loop.max s₀.loop.fetch (rowsOf table)) :
    ∃ s' table', next s = .ok false s' ∧ s'.scan = s₀.behind ∧ s'.feed = .records table'
      ∧ Option.Rel (Table.Consumed (if s₀.loop.fetch then k - 1 else 0)) table table' := by
  have hthrough := (lt_runsOf hends).not.mp (Nat.not_lt_of_le (Nat.le_of_eq hk.symm))
  by_cases hidle : k = 0 ∨ s₀.loop.fetch = false
  · have hnone : (if s₀.loop.fetch then k - 1 else 0) = 0 := by
      rcases hidle with rfl | hno
      · exact ite_self 0
      · rw [hno]
        rfl
    have hmax : s₀.loop.max.any (· < k + 1) = true := by
      by_contra hno
      refine hthrough ⟨Bool.eq_false_iff.mpr hno, fun hfetch => ?_⟩
      rcases hidle with rfl | hno
      · exact Nat.zero_le _
      · rw [hno] at hfetch
        cases hfetch
    obtain ⟨s', hs', hscan, hfeed⟩ := h.ends_idle hidle hmax
    refine ⟨s', table, hs', hscan, hfeed, ?_⟩
    rw [hnone]
    cases table with
    | none => exact .none
    | some t => exact .some (.refl t)
  · obtain ⟨hk0, hno⟩ := not_or.mp hidle
    have hfetch : s₀.loop.fetch = true := by simpa using hno
    rw [if_pos hfetch]
    refine h.ends_reading hk0 hfetch ?_
    unfold runsOf at hk
    rw [if_pos hfetch] at hk
    cases hm : s₀.loop.max with
    | none =>
      rw [hm, Option.elim_none] at hk
      exact .inr (by omega)
    | some m =>
      rw [hm, Option.elim_some] at hk
      rw [Option.any_some, decide_eq_true_eq]
      omega

/-! ## All calls -/

/-- The loop runs as often as it should.  Each run comes to its record. -/
theorem Counting.exists_calls (h : Counting s₀ table 0 s₀) (hends : s₀.loop.max ≠ none ∨ s₀.loop.fetch = true)
    (hcopy : s₀.loop.unrolling = true → 2 ≤ runsOf s₀.loop.max s₀.loop.fetch (rowsOf table) →
      ∃ p, s₀.tree.parent? s₀.loop.anchor = some p)
    (hk : k ≤ runsOf s₀.loop.max s₀.loop.fetch (rowsOf table)) :
    ∃ runs last, Calls Popped s₀ runs last ∧ runs.length = k ∧ Counting s₀ table k last
      ∧ ∀ (i : Nat) (r : Turn), runs[i]? = some r → r.feed = .records (table.map (Table.fetched s₀.loop.fetch (i + 1))) := by
  induction k with
  | zero => exact ⟨[], s₀, .none, rfl, h, fun i r hr => (by cases hr)⟩
  | succ k ih =>
    obtain ⟨runs, last, hcalls, hlength, hlast, hfeeds⟩ := ih (Nat.le_of_succ_le hk)
    obtain ⟨s', s'', hnext, hfeed, hpopped, hcounting⟩ := hlast.begins hends
      (fun hun hpos => hcopy hun (Nat.lt_of_le_of_lt hpos hk)) hk
    refine ⟨runs ++ [s'], s'', .run hcalls hnext hpopped, ?_, hcounting, fun i r hr => ?_⟩
    · rw [List.length_append, hlength]
      rfl
    · rcases Nat.lt_trichotomy i runs.length with hlt | rfl | hgt
      · rw [List.getElem?_append_left hlt] at hr
        exact hfeeds i r hr
      · rw [List.getElem?_concat_length] at hr
        cases hr
        rw [hlength]
        exact hfeed
      · rw [List.getElem?_eq_none (by rw [List.length_append]; exact hgt)] at hr
        cases hr

end Turn

/-! ## Counted loops -/

open Turn (Calls Popped rowsOf)

variable {t : Tree} {anchor : NodeId} {key : String} {combined : Combined} {max : Option Nat}
  {fetch unrolling : Option Bool}

theorem declared_counted (htype : t.attr? anchor "type" = none ∨ t.attr? anchor "type" = some "")
    (hmax : max? t anchor = .ok max) (hfetch : flag? t anchor "fetch" = .ok fetch)
    (hunrolling : flag? t anchor "unrolling" = .ok unrolling) (hends : max ≠ none ∨ fetch = some true) :
    declared t anchor key combined = .ok ⟨.counted false, 0, max, fetch.getD false, unrolling.getD false, key,
      t.keyPath key anchor, anchor⟩ := by
  refine declared_of_attrs ?_ hfetch hunrolling hmax ?_
  · unfold strategyOf
    rcases htype with h | h <;> simp only [h]
  · rcases hends with h | h
    · obtain ⟨m, rfl⟩ := Option.ne_none_iff_exists'.mp h
      exact Bool.and_false _
    · rw [h]
      rfl

/-- A loop without a type, with something in it to run, runs a fixed number of times, and then ends.  That number is its
    maximum; if it fetches, it is one more than the rows that are unread, unless the maximum is lower.  The first run
    works on the current record; if the loop fetches, each further one reads the next row, and otherwise none is read.
    In the end what was current is current again, what was saved is saved, and the walk goes on behind the loop.

    A loop that makes a copy of itself needs a parent. -/
theorem counted_runs (hwf : t.WellFormed) (htype : t.attr? anchor "type" = none ∨ t.attr? anchor "type" = some "")
    (hbody : t.children anchor ≠ []) (hmax : max? t anchor = .ok max) (hfetch : flag? t anchor "fetch" = .ok fetch)
    (hunrolling : flag? t anchor "unrolling" = .ok unrolling) (hends : max ≠ none ∨ fetch = some true)
    (key : String) (combined : Combined) (table : Option Table) (scan : List Position)
    (hcopy : unrolling = some true → 2 ≤ runsOf max (fetch.getD false) (rowsOf table) →
      ∃ p, t.parent? anchor = some p) :
    ∃ l t₀ runs last ended table', enter anchor key combined t = .ok l t₀
      ∧ Calls Popped ⟨l, t₀, .records table, scan⟩ runs last
      ∧ runs.length = runsOf max (fetch.getD false) (rowsOf table)
      ∧ (∀ (i : Nat) (r : Turn), runs[i]? = some r → ∃ seen, r.feed = .records seen
        ∧ Option.Rel (Table.Shown (fetch.getD false) i) table seen)
      ∧ Turn.next last = .ok false ended
      ∧ ended.scan = ((t₀.nextSibling? anchor).map (Position.mk key)).toList ++ scan
      ∧ ended.feed = .records table'
      ∧ Option.Rel (Table.Consumed (if fetch.getD false then runs.length - 1 else 0)) table table' := by
  have hset : Settled t anchor _ := settled hwf
  have henter : enter anchor key combined t = _ :=
    enter_of_declared (declared_counted htype hmax hfetch hunrolling hends)
  generalize (dropCopies t anchor).setSeq anchor 0 = t₀ at hset henter
  generalize hl : Loop.mk (.counted false) 0 max (fetch.getD false) (unrolling.getD false) key (t.keyPath key anchor)
    anchor = l at henter
  have hends' : l.max ≠ none ∨ l.fetch = true := by
    rw [← hl]
    exact hends.imp_right fun h => by rw [h]; rfl
  have hcopy' : l.unrolling = true → 2 ≤ runsOf l.max l.fetch (rowsOf table) → ∃ p, t₀.parent? l.anchor = some p := by
    rw [← hl]
    intro hun htwo
    rw [hset.parent?]
    refine hcopy ?_ htwo
    cases unrolling with
    | none => cases hun
    | some b => exact congrArg some hun
  have hstart : Turn.Counting ⟨l, t₀, .records table, scan⟩ table 0 ⟨l, t₀, .records table, scan⟩ := by
    refine ⟨?_, ?_, rfl, hset.wellFormed, ?_, rfl, rfl⟩
    · rw [← hl, show decide (2 ≤ 0) = false from rfl, Bool.and_false]
    · rw [Table.fetched, if_neg (by simp), Option.map_id]
      rfl
    · rw [← hl]
      exact fun h => hbody (hset.children.symm.trans h)
  obtain ⟨runs, last, hcalls, hlength, hlast, hfeeds⟩ := hstart.exists_calls hends' hcopy' (Nat.le_refl _)
  obtain ⟨ended, table', hnext, hscan, hfeed, hrel⟩ := hlast.ends hends' rfl
  have hbehind : ended.scan = ((t₀.nextSibling? anchor).map (Position.mk key)).toList ++ scan := by
    rw [hscan, Turn.behind, ← hl]
    dsimp only
    cases t₀.nextSibling? anchor <;> rfl
  refine ⟨l, t₀, runs, last, ended, table', henter, hcalls, ?_, fun i r hr => ⟨_, hfeeds i r hr, ?_⟩, hnext, hbehind,
    hfeed, ?_⟩
  · rw [hlength, ← hl]
  · have hi : i < runsOf l.max l.fetch (rowsOf table) := hlength ▸ (List.getElem?_eq_some_iff.mp hr).1
    rw [← hl] at hends' hi ⊢
    have hrows := ((lt_runsOf hends').mp hi).2
    cases table with
    | none => exact .none
    | some t => exact .some (Table.shown_fetched hrows)
  · rw [hlength]
    rw [← hl] at hrel ⊢
    exact hrel

/-- A loop that fetches three times at most, over two unread rows, and makes copies of itself. -/
theorem counted_runs_over_rows :
    let loop : Element := .mk "repeat" [("max", "3"), ("fetch", "true"), ("unrolling", "true")] "" .none
      [.mk "nop" [] "" .none []]
    let t := Tree.ofElement (.mk "layout" [] "" .none [loop, .mk "nop" [] "" .none []])
    let table : Table := ⟨[("A", 0)], [⟨["1"], 2⟩, ⟨["2"], 3⟩, ⟨["3"], 4⟩], 1, true, 2, [["1"]]⟩
    ∃ l t₀ runs last ended table', enter 1 "" (.ofList []) t = .ok l t₀
      ∧ Calls Popped ⟨l, t₀, .records (some table), []⟩ runs last ∧ runs.length = 3
      ∧ Turn.next last = .ok false ended ∧ ended.scan = [⟨"", 3⟩]
      ∧ ended.feed = .records table' ∧ Option.Rel (Table.Consumed 2) (some table) table' := by
  intro loop t table
  have hwf : t.WellFormed := (Tree.grafted_ofElement _).wellFormed
  have hmax : max? t 1 = .ok (some 3) := rfl
  have hfetch : flag? t 1 "fetch" = .ok (some true) := rfl
  have hunrolling : flag? t 1 "unrolling" = .ok (some true) := rfl
  have hparent : t.parent? 1 = some 0 := rfl
  obtain ⟨l, t₀, runs, last, ended, table', henter, hcalls, hlength, -, hnext, hscan, hfeed, hrel⟩ :=
    counted_runs hwf (.inl rfl) (by decide) hmax hfetch hunrolling (.inr rfl) "" (.ofList []) (some table) []
      fun _ _ => ⟨0, hparent⟩
  have hsibling : Action.succeeds (enter 1 "" (.ofList []) t) (fun _ t' => t'.nextSibling? 1 == some 3) = true := by
    decide +kernel
  rw [henter] at hsibling
  have hthree : runs.length = 3 := hlength
  refine ⟨l, t₀, runs, last, ended, table', henter, hcalls, hthree, hnext, ?_, hfeed, ?_⟩
  · rw [hscan, eq_of_beq (show (t₀.nextSibling? 1 == some 3) = true from hsibling)]
    rfl
  · rw [hthree] at hrel
    exact hrel

/-- A loop without a parent cannot put a copy behind itself, and so it does not run twice. -/
theorem root_is_not_copied :
    let t := Tree.ofElement (.mk "repeat" [("max", "2"), ("unrolling", "true")] "" .none [.mk "nop" [] "" .none []])
    t.WellFormed ∧ t.attr? 0 "type" = none ∧ t.children 0 ≠ [] ∧ max? t 0 = .ok (some 2)
      ∧ flag? t 0 "fetch" = .ok none ∧ flag? t 0 "unrolling" = .ok (some true) ∧ runsOf (some 2) false (rowsOf none) = 2
      ∧ ¬ ∃ l t₀ runs last, enter 0 "" (.ofList []) t = .ok l t₀
        ∧ Calls Popped ⟨l, t₀, .records none, []⟩ runs last ∧ runs.length = 2 := by
  intro t
  refine ⟨(Tree.grafted_ofElement _).wellFormed, rfl, by decide, rfl, rfl, rfl, rfl, ?_⟩
  rintro ⟨l, t₀, runs, last, henter, hcalls, hlength⟩
  -- the second call fails
  have hfails : Action.succeeds (enter 0 "" (.ofList []) t) (fun l t₀ =>
      Action.succeeds (Turn.next ⟨l, t₀, .records none, []⟩) fun _ s =>
        !Action.succeeds (Turn.next { s with scan := s.scan.tail }) fun _ _ => true) = true := by
    decide +kernel
  rw [henter] at hfails
  cases hcalls with
  | none => cases hlength
  | @run runs s₁ s₂ _ before begins _ =>
    cases before with
    | none => cases hlength
    | @run runs s₀ s' _ before begins' rest =>
      cases before with
      | none =>
        have hfails : Action.succeeds (Turn.next ⟨l, t₀, .records none, []⟩) (fun _ s =>
          !Action.succeeds (Turn.next { s with scan := s.scan.tail }) fun _ _ => true) = true := hfails
        have hpopped : s₁ = { s' with scan := s'.scan.tail } := rest
        rw [begins'] at hfails
        have hfails : (!Action.succeeds (Turn.next { s' with scan := s'.scan.tail }) fun _ _ => true) = true := hfails
        rw [← hpopped, begins] at hfails
        cases hfails
      | run => simp at hlength

end Loop

end Stencil
