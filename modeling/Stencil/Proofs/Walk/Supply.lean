/-
  What a walk can still read.

  A loop that moves on takes something away: a row that has not been read, or a document that the cursor has
  not passed.  How much of that is left is the `Supply` of a walk.  Nothing ever adds to it (`Spent`).

  A loop that does not move on itself has runs that are `due`: up to its maximum, or one, if what it watches
  has changed since its last run.  So a further run of a loop lowers what is left, or what is due
  (`due_lt_of_next`).
-/
import Stencil.Proofs.Walk.Visits

set_option autoImplicit false

namespace Stencil

/-- Of a table: which row was read last, and how many are unread. -/
def Table.mark (t : Table) : Int × Nat := (t.lastRead, t.unread.length)

/-- What is left of the records of a walk, and where the cursor stands among its secondary documents. -/
structure Supply where
  /-- The records of the main document. -/
  main : Option (Int × Nat)
  /-- The cursor. -/
  cursor : Option Nat
  /-- The records of each secondary document. -/
  secondary : List (Option (Int × Nat))
  deriving DecidableEq, Repr

namespace Supply

/-- The number of unread rows. -/
def rows (m : Option (Int × Nat)) : Nat := (m.map Prod.snd).getD 0

/-- The number of times that the cursor can be moved. -/
def moves (cursor : Option Nat) : Nat → Nat
  | 0 => 0
  | size + 1 => size + 2 - (cursor.map (· + 1)).getD 0

/-- How much is left. -/
def left (s : Supply) : Nat :=
  rows s.main + (s.secondary.map rows).sum + moves s.cursor s.secondary.length

/-- The last row that was read of the document that the cursor stands on. -/
def lastRead (s : Supply) : Option Int := ((s.cursor.bind (s.secondary[·]?)).join).map Prod.fst

/-- Nothing has changed, or there is less left. -/
def Spent (s s' : Supply) : Prop := s' = s ∨ s'.left < s.left ∧ s'.main.isSome = s.main.isSome

theorem Spent.refl (s : Supply) : Spent s s := .inl rfl

theorem Spent.trans {s s₁ s' : Supply} (h : Spent s s₁) (h' : Spent s₁ s') : Spent s s' := by
  rcases h with rfl | h
  · exact h'
  · rcases h' with rfl | h'
    · exact .inr h
    · exact .inr ⟨Nat.lt_trans h'.1 h.1, h'.2.trans h.2⟩

/-- Between two equal supplies nothing has been spent. -/
theorem Spent.eq_of_trans {s s₁ s' : Supply} (h : Spent s s₁) (h' : Spent s₁ s') (he : s' = s) : s₁ = s := by
  rcases h with rfl | h
  · rfl
  · rcases h' with rfl | h'
    · exact he
    · subst he
      exact absurd (Nat.lt_trans h.1 h'.1) (Nat.lt_irrefl _)

theorem sum_rows_set {ms : List (Option (Int × Nat))} {i : Nat} {m : Option (Int × Nat)}
    (h : ms[i]? = some m) (m' : Option (Int × Nat)) :
    ((ms.set i m').map rows).sum + rows m = (ms.map rows).sum + rows m' := by
  induction ms generalizing i with
  | nil => cases h
  | cons a ms ih =>
    cases i with
    | zero =>
      cases h
      simp only [List.set_cons_zero, List.map_cons, List.sum_cons]
      omega
    | succ i =>
      have := ih h
      simp only [List.set_cons_succ, List.map_cons, List.sum_cons]
      omega

/-- The rows of a secondary document are spent. -/
theorem spent_set {s : Supply} {i : Nat} {m m' : Option (Int × Nat)} (h : s.secondary[i]? = some m)
    (hm : m' = m ∨ rows m' < rows m) : Spent s { s with secondary := s.secondary.set i m' } := by
  rcases hm with rfl | hm
  · left
    obtain ⟨hi, he⟩ := List.getElem?_eq_some_iff.mp h
    rw [← he, List.set_getElem_self]
  · refine .inr ⟨?_, rfl⟩
    have := sum_rows_set h m'
    unfold left
    rw [List.length_set]
    dsimp only
    omega

/-- The cursor is moved. -/
theorem spent_cursor {s : Supply} {cursor : Option Nat}
    (h : cursor = s.cursor ∨ moves cursor s.secondary.length < moves s.cursor s.secondary.length) :
    Spent s { s with cursor } := by
  rcases h with rfl | h
  · exact .inl rfl
  · exact .inr ⟨Nat.add_lt_add_left h _, rfl⟩

/-- What is spent of the secondary documents is spent. -/
theorem Spent.of_documents {main : Option (Int × Nat)} {c c' : Option Nat} {ms ms' : List (Option (Int × Nat))}
    (h : Spent ⟨none, c, ms⟩ ⟨none, c', ms'⟩) :
    Spent ⟨main, c, ms⟩ ⟨main, c', ms'⟩
      ∧ ((⟨main, c', ms'⟩ : Supply) = ⟨main, c, ms⟩ → (⟨none, c', ms'⟩ : Supply) = ⟨none, c, ms⟩) := by
  refine ⟨?_, fun he => by cases he; rfl⟩
  rcases h with h | ⟨h, -⟩
  · cases h
    exact .refl _
  · refine .inr ⟨?_, rfl⟩
    simp only [left, rows, Option.map_none, Option.getD_none] at h ⊢
    omega

/-- What is spent of the main document is spent. -/
theorem Spent.of_main {m m' : Option (Int × Nat)} {c : Option Nat} {ms : List (Option (Int × Nat))}
    (h : Spent ⟨m, none, []⟩ ⟨m', none, []⟩) :
    Spent ⟨m, c, ms⟩ ⟨m', c, ms⟩
      ∧ ((⟨m', c, ms⟩ : Supply) = ⟨m, c, ms⟩ → (⟨m', none, []⟩ : Supply) = ⟨m, none, []⟩) := by
  refine ⟨?_, fun he => by cases he; rfl⟩
  rcases h with h | ⟨h, hp⟩
  · cases h
    exact .refl _
  · refine .inr ⟨?_, hp⟩
    simp only [left] at h ⊢
    omega

/-- What is spent of a secondary document is spent. -/
theorem Spent.of_secondary (main : Option (Int × Nat)) (c : Option Nat) {ms : List (Option (Int × Nat))} {i : Nat}
    {m m' : Int × Nat} (hi : ms[i]? = some (some m)) (h : Spent ⟨some m, none, []⟩ ⟨some m', none, []⟩) :
    Spent ⟨main, c, ms⟩ ⟨main, c, ms.set i (some m')⟩
      ∧ ((⟨main, c, ms.set i (some m')⟩ : Supply) = ⟨main, c, ms⟩ →
        (⟨some m', none, []⟩ : Supply) = ⟨some m, none, []⟩) := by
  refine ⟨?_, fun he => ?_⟩
  · refine spent_set (s := ⟨main, c, ms⟩) hi ?_
    rcases h with h | ⟨h, -⟩
    · exact .inl (congrArg Supply.main h)
    · exact .inr h
  · have hs : (ms.set i (some m'))[i]? = some (some m) := by
      rw [show ms.set i (some m') = ms from congrArg Supply.secondary he]
      exact hi
    rw [List.getElem?_set_self (List.getElem?_eq_some_iff.mp hi).1] at hs
    cases hs
    rfl

end Supply

open Supply (Spent)

/-! ## Reading -/

/-- Reading finds a row and there is one less, or it does nothing that counts. -/
theorem Table.mark_read (t : Table) :
    t.read.1 = true ∧ t.read.2.unread.length < t.unread.length
      ∨ t.read.1 = false ∧ t.read.2.mark = t.mark := by
  cases h : t.read.1 with
  | true =>
    refine .inl ⟨rfl, ?_⟩
    rw [read_fst, Bool.not_eq_true'] at h
    rw [unread_read, List.length_tail]
    have := List.length_pos_iff.mpr (List.isEmpty_eq_false_iff.mp h)
    omega
  | false =>
    refine .inr ⟨rfl, ?_⟩
    unfold read at h ⊢
    split at h
    · cases h
    · rfl

theorem Table.spent_read (t : Table) :
    some t.read.2.mark = some t.mark ∨ Supply.rows (some t.read.2.mark) < Supply.rows (some t.mark) := by
  rcases t.mark_read with ⟨-, h⟩ | ⟨-, h⟩
  · exact .inr h
  · exact .inl (congrArg some h)

namespace Combined

/-- What is left of the secondary documents. -/
def marks (c : Combined) : List (Option (Int × Nat)) := c.entries.map fun e => e.table.map Table.mark

theorem marks_setTable (c : Combined) (i : Nat) (t : Table) :
    (c.setTable i t).marks = c.marks.set i (some t.mark) := by
  unfold marks setTable
  refine List.ext_getElem? fun j => ?_
  rw [List.getElem?_map, List.getElem?_modify, List.getElem?_set]
  by_cases h : i = j
  · subst h
    by_cases hi : i < c.entries.length <;> simp [hi]
  · simp only [h, if_false, List.getElem?_map]
    cases c.entries[j]? <;> rfl

theorem getElem?_marks {c : Combined} {i : Nat} {t : Table} (h : c.tableAt? i = some t) :
    c.marks[i]? = some (some t.mark) := by
  obtain ⟨e, he, ht⟩ := Option.bind_eq_some_iff.mp h
  unfold marks
  rw [List.getElem?_map, he, Option.map_some, ht, Option.map_some]

theorem moves_advance (c : Combined) :
    c.advance.cursor = c.cursor ∧ c.advance.currentIndex = none
      ∨ Supply.moves c.advance.cursor c.marks.length < Supply.moves c.cursor c.marks.length := by
  have hlen : c.marks.length = c.size := List.length_map _
  rw [hlen]
  unfold advance currentIndex
  cases hc : c.cursor with
  | none =>
    by_cases hs : c.size = 0
    · left
      simp [hs, hc]
    · right
      obtain ⟨n, hn⟩ := Nat.exists_eq_succ_of_ne_zero hs
      rw [hn]
      simp [Supply.moves]
  | some i =>
    by_cases hi : i < c.size
    · right
      obtain ⟨n, hn⟩ := Nat.exists_eq_succ_of_ne_zero (Nat.ne_zero_of_lt hi)
      rw [hn] at hi ⊢
      simp only [Nat.succ_eq_add_one] at hi ⊢
      simp only [hi, if_true, Supply.moves, Option.map_some, Option.getD_some]
      omega
    · left
      simp [hi, hc, Nat.le_of_not_lt hi]

end Combined

/-- What is left of what a loop moves on. -/
def Feed.supply : Feed → Supply
  | .records table => ⟨table.map Table.mark, none, []⟩
  | .documents c => ⟨none, c.cursor, c.marks⟩

namespace Loop

/-- The number of runs that a loop still has if nothing else moves on. -/
def due (s : Supply) (l : Loop) : Nat :=
  if l.fetch then 0
  else
    match l.strategy with
    | .counted _ => l.max.getD 0 - l.count
    | .documents previous => if previous = s.cursor then 0 else 1
    | .records previous => if previous = s.lastRead then 0 else 1

/-- A counted loop fetches or has a maximum. -/
def Limited (l : Loop) : Prop := l.strategy.isCounted = true → l.fetch = false → l.max.isSome = true

theorem limited_declared {t : Tree} {anchor : NodeId} {key : String} {combined : Combined} {l : Loop}
    (h : declared t anchor key combined = .ok l) : l.Limited := by
  intro hcounted hnofetch
  have hbounded := (declared_eq_ok h).bounded
  rw [hcounted, hnofetch] at hbounded
  cases hm : l.max with
  | none =>
    rw [hm] at hbounded
    cases hbounded
  | some m => rfl

namespace Turn

variable {s s' : Turn} {more reached : Bool} {c : Combined}

theorem spent_readAt (c : Combined) (i : Nat) :
    Spent (Feed.documents c).supply (Feed.documents (c.readAt i).2).supply := by
  unfold Combined.readAt
  cases ht : c.tableAt? i with
  | none => exact .refl _
  | some t =>
    show Spent ⟨none, c.cursor, c.marks⟩ ⟨none, c.cursor, (c.setTable i t.read.2).marks⟩
    rw [Combined.marks_setTable]
    exact Supply.spent_set (s := ⟨none, c.cursor, c.marks⟩) (Combined.getElem?_marks ht) t.spent_read

theorem spent_next (c : Combined) :
    Spent (Feed.documents c).supply (Feed.documents c.next.2).supply := by
  have hmarks : c.advance.marks = c.marks := by
    unfold Combined.advance
    split <;> split <;> rfl
  show Spent ⟨none, c.cursor, c.marks⟩ ⟨none, c.advance.cursor, c.advance.marks⟩
  rw [hmarks]
  refine Supply.spent_cursor (s := ⟨none, c.cursor, c.marks⟩) ?_
  rcases c.moves_advance with ⟨h, -⟩ | h
  · exact .inl h
  · exact .inr h

theorem spent_readCurrent {r : Option Bool} (hf : s.feed = .documents c) (h : readCurrent c s = .ok r s') :
    s'.loop = s.loop ∧ Spent s.feed.supply s'.feed.supply := by
  unfold readCurrent at h
  cases hi : c.currentIndex with
  | none =>
    simp only [hi] at h
    obtain ⟨-, rfl⟩ := Action.pure_eq_ok.mp h
    exact ⟨rfl, .refl _⟩
  | some i =>
    simp only [hi] at h
    rw [Action.modify_bind_eq_ok] at h
    obtain ⟨-, rfl⟩ := Action.pure_eq_ok.mp h
    rw [hf]
    exact ⟨rfl, spent_readAt c i⟩

theorem left_readCurrent (hf : s.feed = .documents c) (h : readCurrent c s = .ok (some true) s') :
    s'.feed.supply.left < s.feed.supply.left := by
  unfold readCurrent at h
  cases hi : c.currentIndex with
  | none =>
    simp only [hi] at h
    cases (Action.pure_eq_ok.mp h).1
  | some i =>
    simp only [hi] at h
    rw [Action.modify_bind_eq_ok] at h
    obtain ⟨hr, rfl⟩ := Action.pure_eq_ok.mp h
    rw [hf]
    unfold Combined.readAt at hr ⊢
    cases ht : c.tableAt? i with
    | none =>
      rw [ht] at hr
      cases hr
    | some t =>
      simp only [ht, Option.some.injEq] at hr ⊢
      have hsum := Supply.sum_rows_set (Combined.getElem?_marks ht) (some t.read.2.mark)
      have hlt : t.read.2.unread.length < t.unread.length := by
        rcases t.mark_read with ⟨-, h⟩ | ⟨h, -⟩
        · exact h
        · rw [h] at hr
          cases hr
      show 0 + ((c.setTable i t.read.2).marks.map Supply.rows).sum
          + Supply.moves c.cursor (c.setTable i t.read.2).marks.length
        < 0 + (c.marks.map Supply.rows).sum + Supply.moves c.cursor c.marks.length
      rw [Combined.marks_setTable, List.length_set]
      have hr' : Supply.rows (some t.read.2.mark) = t.read.2.unread.length := rfl
      have hr'' : Supply.rows (some t.mark) = t.unread.length := rfl
      omega

/-- What moving a loop on does to what is left; the loop stays one of its kind. -/
structure Moves (s : Turn) (more : Bool) (s' : Turn) : Prop where
  kind : s'.loop.strategy.isCounted = s.loop.strategy.isCounted
  spent : Spent s.feed.supply s'.feed.supply
  due : more = true → 1 ≤ s.loop.count → s'.feed.supply = s.feed.supply →
    s.loop.fetch = false ∧ s.loop.strategy.isCounted = true ∧ s'.loop = s.loop
      ∨ Loop.due s.feed.supply s'.loop < Loop.due s.feed.supply s.loop

theorem supply_save (h : save s = .ok () s') :
    s'.loop.strategy.isCounted = true ∧ s'.feed.supply = s.feed.supply := by
  rw [Action.modify_eq_ok.mp h]
  refine ⟨rfl, ?_⟩
  cases s.feed with
  | records t => cases t <;> rfl
  | documents c => rfl

theorem moves_readRecord (h : readRecord s = .ok more s') :
    s'.loop = s.loop ∧ Spent s.feed.supply s'.feed.supply
      ∧ (more = true → s'.feed.supply.left < s.feed.supply.left) := by
  rw [readRecord, Action.get_bind_eq_ok] at h
  cases hf : s.feed with
  | records t =>
    cases t with
    | none =>
      simp only [hf] at h
      obtain ⟨rfl, rfl⟩ := Action.pure_eq_ok.mp h
      rw [hf]
      exact ⟨rfl, .refl _, fun hm => (by cases hm)⟩
    | some t =>
      simp only [hf] at h
      rw [Action.modify_bind_eq_ok] at h
      obtain ⟨rfl, rfl⟩ := Action.pure_eq_ok.mp h
      refine ⟨rfl, ?_⟩
      show Spent ⟨some t.mark, none, []⟩ ⟨some t.read.2.mark, none, []⟩
        ∧ (t.read.1 = true → Supply.rows (some t.read.2.mark) + 0 + 0 < Supply.rows (some t.mark) + 0 + 0)
      rcases t.mark_read with ⟨-, hlt⟩ | ⟨hr, hm⟩
      · exact ⟨.inr ⟨hlt, rfl⟩, fun _ => hlt⟩
      · rw [hm, hr]
        exact ⟨.refl _, fun h => (by cases h)⟩
  | documents c =>
    simp only [hf] at h
    obtain ⟨rfl, rfl⟩ := Action.pure_eq_ok.mp h
    rw [hf]
    exact ⟨rfl, .refl _, fun hm => (by cases hm)⟩

theorem moves_moveCounted (hs : s.loop.strategy.isCounted = true) (h : moveCounted reached s = .ok more s') :
    Moves s more s' := by
  rw [moveCounted, Action.get_bind_eq_ok] at h
  split at h
  · -- the loop fetches: it goes on only with another record
    rename_i hfetch
    have hread : ∀ {s₁ : Turn}, s₁.loop.strategy.isCounted = true → s₁.feed.supply = s.feed.supply →
        readRecord s₁ = .ok more s' → Moves s more s' := by
      intro s₁ hk he hr
      obtain ⟨hloop, hsp, hlt⟩ := moves_readRecord hr
      rw [he] at hsp hlt
      refine ⟨?_, hsp, fun hm _ heq => absurd (hlt hm) (by rw [heq]; exact Nat.lt_irrefl _)⟩
      rw [hloop, hk, hs]
    have hstop : ∀ {s₁ : Turn}, s₁.loop.strategy.isCounted = true → s₁.feed.supply = s.feed.supply →
        (pure false : Action Turn Bool) s₁ = .ok more s' → Moves s more s' := by
      intro s₁ hk he hr
      obtain ⟨rfl, rfl⟩ := Action.pure_eq_ok.mp hr
      exact ⟨hk.trans hs.symm, .inl he, fun hm => (by cases hm)⟩
    have hsave : ∀ {x : Action Turn Bool},
        (∀ {s₁ : Turn}, s₁.loop.strategy.isCounted = true → s₁.feed.supply = s.feed.supply →
          x s₁ = .ok more s' → Moves s more s') →
        (if s.loop.count = 1 then do save; x else x) s = .ok more s' → Moves s more s' := by
      intro x hx h
      split at h
      · obtain ⟨_, s₁, h₁, h⟩ := Action.bind_eq_ok.mp h
        exact hx (supply_save h₁).1 (supply_save h₁).2 h
      · exact hx hs rfl h
    split at h
    · exact hsave hstop h
    · exact hsave hread h
  · rename_i hfetch
    obtain ⟨rfl, rfl⟩ := Action.pure_eq_ok.mp h
    refine ⟨rfl, .refl _, fun _ hc _ => .inl ⟨?_, hs, rfl⟩⟩
    rw [Bool.eq_false_iff]
    exact fun hf => hfetch ⟨by omega, hf⟩

theorem moves_moveDocuments {previous : Option Nat} (hs : s.loop.strategy = .documents previous)
    (hf : s.feed = .documents c) (h : moveDocuments c previous s = .ok more s') : Moves s more s' := by
  rw [moveDocuments, Action.get_bind_eq_ok] at h
  split at h
  · rename_i hfetch
    dsimp only at h
    rw [Action.modify_bind_eq_ok] at h
    have hn : Spent s.feed.supply (Feed.documents c.next.2).supply := by
      rw [hf]
      exact spent_next c
    split at h
    · rename_i hmoved
      obtain ⟨r, s₁, h₁, h⟩ := Action.bind_eq_ok.mp h
      obtain ⟨-, rfl⟩ := Action.pure_eq_ok.mp h
      obtain ⟨hloop, hr⟩ := spent_readCurrent (s := { s with feed := .documents c.next.2 }) rfl h₁
      refine ⟨by rw [hloop], hn.trans hr, fun _ _ heq => ?_⟩
      -- the cursor has moved
      have he := hn.eq_of_trans hr heq
      rw [hf] at he
      have hcur : c.advance.cursor = c.cursor := congrArg Supply.cursor he
      rcases c.moves_advance with ⟨-, hi⟩ | hlt
      · rw [show c.next.1 = c.advance.currentIndex.isSome from rfl, hi] at hmoved
        cases hmoved
      · rw [hcur] at hlt
        exact absurd hlt (Nat.lt_irrefl _)
    · rename_i hmoved
      obtain ⟨rfl, rfl⟩ := Action.pure_eq_ok.mp h
      exact ⟨rfl, hn, fun hm => absurd hm hmoved⟩
  · rename_i hfetch
    split at h
    · obtain ⟨rfl, rfl⟩ := Action.pure_eq_ok.mp h
      exact ⟨rfl, .refl _, fun hm => (by cases hm)⟩
    · split at h
      · exact (Action.failAt_eq_ok.mp h).elim
      · rename_i hstall
        rw [setLoop, Action.modify_bind_eq_ok] at h
        obtain ⟨-, rfl⟩ := Action.pure_eq_ok.mp h
        refine ⟨by rw [hs]; rfl, .refl _, fun _ hc _ => .inr ?_⟩
        have hne : previous ≠ c.cursor := fun he => hstall ⟨by omega, he⟩
        rw [hf]
        show (if s.loop.fetch then 0 else if c.cursor = c.cursor then 0 else 1) < Loop.due _ s.loop
        unfold Loop.due
        rw [if_neg hfetch, if_neg hfetch, if_pos rfl, hs]
        show 0 < if previous = c.cursor then 0 else 1
        rw [if_neg hne]
        exact Nat.one_pos

theorem lastRead_documents {e : CombinedEntry} (h : c.current? = some e) :
    (Feed.documents c).supply.lastRead = e.table.map Table.lastRead := by
  obtain ⟨i, hi, he⟩ := Option.bind_eq_some_iff.mp h
  have hc : c.cursor = some i := (Option.filter_eq_some_iff.mp hi).1
  show ((c.cursor.bind (c.marks[·]?)).join).map Prod.fst = _
  rw [hc]
  unfold Combined.marks
  show ((List.map _ c.entries)[i]?.join).map Prod.fst = _
  rw [List.getElem?_map, he]
  show ((some (e.table.map Table.mark)).join).map Prod.fst = _
  cases e.table <;> rfl

theorem moves_moveRecords {previous : Option Int} (hs : s.loop.strategy = .records previous)
    (hf : s.feed = .documents c) (h : moveRecords c previous reached s = .ok more s') : Moves s more s' := by
  rw [moveRecords, Action.get_bind_eq_ok] at h
  have hstop : ∀ {s₁ : Turn}, s₁ = s → (pure false : Action Turn Bool) s₁ = .ok more s' → Moves s more s' := by
    intro s₁ he hr
    obtain ⟨rfl, rfl⟩ := Action.pure_eq_ok.mp hr
    exact ⟨by rw [he], .inl (by rw [he]), fun hm => (by cases hm)⟩
  cases hc : c.current? with
  | none =>
    simp only [hc] at h
    exact (Action.failAt_eq_ok.mp h).elim
  | some e =>
    simp only [hc] at h
    split at h
    · rename_i hfetch
      split at h
      · exact hstop rfl h
      · obtain ⟨r, s₁, h₁, h⟩ := Action.bind_eq_ok.mp h
        obtain ⟨rfl, rfl⟩ := Action.pure_eq_ok.mp h
        obtain ⟨hloop, hsp⟩ := spent_readCurrent hf h₁
        refine ⟨by rw [hloop], hsp, fun hm _ heq => ?_⟩
        obtain rfl : r = some true := by
          cases r with
          | none => cases hm
          | some b => exact congrArg some hm
        exact absurd (left_readCurrent hf h₁) (by rw [heq]; exact Nat.lt_irrefl _)
    · rename_i hfetch
      cases ht : e.table with
      | none =>
        simp only [ht] at h
        exact hstop rfl h
      | some t =>
        simp only [ht] at h
        split at h
        · exact hstop rfl h
        · split at h
          · exact (Action.failAt_eq_ok.mp h).elim
          · rename_i hstall
            rw [setLoop, Action.modify_bind_eq_ok] at h
            obtain ⟨-, rfl⟩ := Action.pure_eq_ok.mp h
            refine ⟨by rw [hs]; rfl, .refl _, fun _ hcount _ => .inr ?_⟩
            have hnf : ¬ s.loop.fetch = true := fun hfe => hfetch ⟨by omega, hfe⟩
            have hne : previous ≠ some t.lastRead := fun he => hstall ⟨by omega, he⟩
            have hlast : s.feed.supply.lastRead = some t.lastRead := by
              rw [hf, lastRead_documents hc, ht]
              rfl
            show (if s.loop.fetch then 0 else if some t.lastRead = s.feed.supply.lastRead then 0 else 1)
              < Loop.due _ s.loop
            unfold Loop.due
            rw [if_neg hnf, if_neg hnf, hs, if_pos hlast.symm]
            show 0 < if previous = s.feed.supply.lastRead then 0 else 1
            rw [hlast, if_neg hne]
            exact Nat.one_pos

theorem moves_move (h : move s = .ok more s') : Moves s more s' := by
  rw [move, Action.get_bind_eq_ok] at h
  cases hs : s.loop.strategy <;> cases hf : s.feed <;> simp only [hs, hf] at h
  case counted.records => exact moves_moveCounted (by rw [hs]; rfl) h
  case documents.documents => exact moves_moveDocuments hs hf h
  case records.documents => exact moves_moveRecords hs hf h
  all_goals exact (Action.fail_eq_ok.mp h).elim

theorem supply_restored (s : Turn) : s.restored.supply = s.feed.supply := by
  unfold restored
  split
  · rename_i table _ hf
    rw [hf]
    cases table <;> rfl
  · rfl

/-- A run that is counted is not due any more. -/
theorem due_counted_le (x : Supply) (l : Loop) (a : NodeId) :
    Loop.due x { l with count := l.count + 1, anchor := a } ≤ Loop.due x l := by
  unfold Loop.due
  dsimp only
  split
  · exact Nat.le_refl _
  · split <;> omega

theorem due_counted_lt {x : Supply} {l : Loop} {a : NodeId} (hc : l.strategy.isCounted = true)
    (hf : l.fetch = false) (hlim : l.Limited) (hmax : l.max.any (· < l.count + 1) = false) :
    Loop.due x { l with count := l.count + 1, anchor := a } < Loop.due x l := by
  obtain ⟨m, hm⟩ := Option.isSome_iff_exists.mp (hlim hc hf)
  rw [hm, Option.any_some, decide_eq_false_iff_not] at hmax
  cases hs : l.strategy with
  | counted b =>
    simp only [Loop.due, hf, hs, hm, Option.getD_some, Bool.false_eq_true, if_false]
    omega
  | documents _ => rw [hs] at hc; cases hc
  | records _ => rw [hs] at hc; cases hc

/-- What starting one more run, or ending the loop, does to what is left. -/
theorem next_spends (h : next s = .ok more s') :
    Spent s.feed.supply s'.feed.supply
      ∧ (more = true → s'.loop.strategy.isCounted = s.loop.strategy.isCounted
        ∧ (s.loop.Limited → s'.loop.Limited))
      ∧ (more = true → 1 ≤ s.loop.count → s.loop.Limited → s'.feed.supply = s.feed.supply →
        Loop.due s.feed.supply s'.loop < Loop.due s.feed.supply s.loop) := by
  obtain ⟨moved, s₁, h₁, h⟩ := next_cases h
  have hm := moves_move h₁
  have hmoved := moved_move h₁
  rcases h with ⟨rfl, he, -⟩ | ⟨rfl, hgo, hmax, first, hf, hr⟩
  · have hfeed : s'.feed.supply = s₁.feed.supply := by
      rw [he.feed]
      exact supply_restored s₁
    exact ⟨hfeed ▸ hm.spent, fun hmore => (by cases hmore), fun hmore => (by cases hmore)⟩
  · -- the loop goes on, and one more run is counted
    obtain ⟨hfeed, hloop⟩ := rest_of_runs hr
    refine ⟨hfeed ▸ hm.spent, fun _ => ⟨?_, fun hlim => ?_⟩, fun _ hc hlim heq => ?_⟩
    · rw [hloop]
      exact hm.kind
    · rw [hloop]
      intro hcounted hnf
      rw [hmoved.loop] at hnf ⊢
      exact hlim (hm.kind ▸ hcounted) hnf
    rw [hfeed] at heq
    rw [hloop]
    rcases hm.due hgo hc heq with ⟨hnf, hcounted, hsame⟩ | hlt
    · rw [hsame] at hmax ⊢
      exact due_counted_lt hcounted hnf hlim hmax
    · exact Nat.lt_of_le_of_lt (due_counted_le _ s₁.loop _) hlt

end Turn

end Loop

/-! ## Walks -/

namespace Walk

variable {w w' : Walk} {f : Frame} {more : List Frame} {l l' : Loop} {next : Bool} {u : Unit}

/-- What is left for a walk to read. -/
def supply (w : Walk) : Supply := ⟨w.main.map Table.mark, w.secondary.cursor, w.secondary.marks⟩

/-- What can be seen of it from a frame. -/
def seen (f : Frame) (s : Supply) : Supply :=
  if f.seesSecondary then s else { s with cursor := none, secondary := [] }

/-- What is due in a loop depends on what its frame sees. -/
theorem due_feedOf (h : l'.strategy.isCounted = l.strategy.isCounted) :
    Loop.due (w.feedOf f l).supply l' = Loop.due (seen f w.supply) l' := by
  unfold Loop.due feedOf Loop.feedsOnDocuments
  rw [← h]
  cases l'.strategy with
  | counted b => rfl
  | documents previous =>
    unfold visible seen
    cases f.seesSecondary <;> rfl
  | records previous =>
    unfold visible seen
    cases f.seesSecondary <;> rfl

/-- The walk with what a loop of a frame has moved on. -/
def putFeed (w : Walk) (f : Frame) : Feed → Walk
  | .documents c => if f.seesSecondary then { w with secondary := c } else w
  | .records t => w.setTable f.source t

/-- What a step of a loop takes from what it moves on, it takes from the walk. -/
theorem spent_afterTurn {s : Loop.Turn} (hsame : Loop.SameFeed (w.feedOf f l) s.feed)
    (h : Spent (w.feedOf f l).supply s.feed.supply) :
    Spent w.supply (w.afterTurn f s).supply
      ∧ ((w.afterTurn f s).supply = w.supply → s.feed.supply = (w.feedOf f l).supply) := by
  -- the step puts what it moved on back into the walk
  have hframes : (w.afterTurn f s).supply = (w.putFeed f s.feed).supply := by
    unfold afterTurn putFeed
    cases hfeed : s.feed with
    | documents c =>
      dsimp only
      cases f.seesSecondary <;> cases w.frames <;> rfl
    | records t =>
      dsimp only
      rw [setTable_rest, setTable_rest w]
      dsimp only
      cases w.frames <;> cases f.source <;> cases t <;> rfl
  rw [hframes]
  unfold putFeed
  generalize hfeed : w.feedOf f l = feed at hsame h
  unfold feedOf at hfeed
  cases hfs : s.feed with
  | documents c =>
    rw [hfs] at hsame h
    split at hfeed
    · subst hfeed
      unfold visible at h ⊢
      by_cases hsees : f.seesSecondary = true
      · simp only [hsees, if_true] at h ⊢
        exact Spent.of_documents h
      · simp only [hsees] at h ⊢
        refine ⟨.refl _, fun _ => ?_⟩
        rcases h with h | h
        · exact h
        · exact absurd h.1 (Nat.not_lt_zero _)
    · subst hfeed
      exact hsame.elim
  | records t =>
    rw [hfs] at hsame h
    split at hfeed
    · subst hfeed
      exact hsame.elim
    · subst hfeed
      cases hsrc : f.source with
      | main =>
        rw [hsrc] at h
        exact Spent.of_main h
      | secondary i =>
        rw [hsrc] at h
        change Spent ⟨(w.secondary.tableAt? i).map Table.mark, none, []⟩ ⟨t.map Table.mark, none, []⟩ at h
        have hsome : t.isSome = (w.secondary.tableAt? i).isSome := by
          rcases h with h | h
          · have := congrArg (fun x => x.main.isSome) h
            simpa using this
          · simpa using h.2
        cases t with
        | none =>
          refine ⟨.refl _, fun _ => ?_⟩
          cases hi : w.secondary.tableAt? i with
          | none => simp [tableOf, hi]
          | some x => rw [hi] at hsome; cases hsome
        | some t =>
          obtain ⟨x, hi⟩ := Option.isSome_iff_exists.mp (hsome.symm.trans rfl)
          rw [hi] at h
          have hs := Spent.of_secondary (w.main.map Table.mark) w.secondary.cursor
            (Combined.getElem?_marks hi) h
          rw [← Combined.marks_setTable] at hs
          exact ⟨hs.1, fun he => by rw [tableOf, hi]; exact hs.2 he⟩

/-- What the next step of a loop does to what is left. -/
structure TurnSpends (w : Walk) (f : Frame) (l : Loop) (next : Bool) (l' : Loop) (w' : Walk) : Prop where
  spent : Spent w.supply w'.supply
  limited : next = true → l.Limited → l'.Limited
  due : next = true → 1 ≤ l.count → l.Limited → w'.supply = w.supply →
    Loop.due (seen f w.supply) l' < Loop.due (seen f w.supply) l

theorem turnSpends (h : turn f l w = .ok (next, l') w') (hsame : ∀ s,
    Loop.Turn.next ⟨l, w.space.tree, w.feedOf f l, f.scan⟩ = .ok next s → Loop.SameFeed (w.feedOf f l) s.feed) :
    TurnSpends w f l next l' w' := by
  obtain ⟨s, hs, rfl, rfl⟩ := turn_ok h
  obtain ⟨hspent, hlim, hdue⟩ := Loop.Turn.next_spends hs
  obtain ⟨hw, heq⟩ := spent_afterTurn (hsame s hs) hspent
  refine ⟨hw, fun hn => (hlim hn).2, fun hn hc hl he => ?_⟩
  have hlt := hdue hn hc hl (heq he)
  change Loop.due (w.feedOf f l).supply s.loop < Loop.due (w.feedOf f l).supply l at hlt
  rw [due_feedOf (hlim hn).1, due_feedOf rfl] at hlt
  exact hlt

end Walk

end Stencil
