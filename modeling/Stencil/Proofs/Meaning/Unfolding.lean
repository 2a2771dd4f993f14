/-
  What elements give is what becomes of an agenda with them.

  A step of an agenda takes one element off, and what is around it stays on the agenda until it is come to.
  So the steps from an element on lead to where the element is taken off, with the bytes that it gives: by
  induction on the element, and for a loop on the number of its further runs.

  Meanwhile records are read.  Behind an element there are fewer unread rows, but the record that was current
  before it is current again (`Resumed`).
-/
import Stencil.Proofs.Meaning.Agenda

set_option autoImplicit false

namespace Stencil.Meaning

open Loop (Turn)

variable {main main₁ main₂ main' : Option Table} {unread unread' : List Row} {e : Element} {es body behind : List Element}
  {a : Agenda} {l : Loop} {limits : Limits} {bs : Bytes} {key : String} {record : List String}

/-! ## Records -/

/-- The records, or a table with nothing in it if there are none. -/
def tableOf (main : Option Table) : Table := main.getD .empty

/-- The records `main'` are `main`, but that other rows are unread. -/
structure Resumed (main main' : Option Table) (unread : List Row) : Prop where
  columns : (tableOf main').columns = (tableOf main).columns
  stack : (tableOf main').stack = (tableOf main).stack
  unread : (tableOf main').unread = unread

namespace Resumed

theorem refl (main : Option Table) : Resumed main main (tableOf main).unread := ⟨rfl, rfl, rfl⟩

theorem trans (h : Resumed main main₁ unread) (h' : Resumed main₁ main₂ unread') : Resumed main main₂ unread' :=
  ⟨h'.columns.trans h.columns, h'.stack.trans h.stack, h'.unread⟩

/-- The current record is on top of the saved ones. -/
theorem current (h : Resumed main main' unread) : (tableOf main').current = (tableOf main).current := by
  unfold Table.current
  rw [h.stack]

end Resumed

theorem tableOf_map_pop (main : Option Table) : tableOf (main.map Table.pop) = (tableOf main).pop := by
  cases main <;> rfl

theorem tableOf_map_read (main : Option Table) : tableOf (main.map fun t => t.read.2) = (tableOf main).read.2 := by
  cases main <;> rfl

theorem recordValue_eq (main : Option Table) (key : String) :
    (main.map fun t => t.field key).getD "" = lookup (tableOf main).columns (tableOf main).current key := by
  cases main <;> rfl

theorem columns_read (t : Table) : t.read.2.columns = t.columns := by
  unfold Table.read
  split <;> rfl

theorem tail_stack_read (t : Table) : t.read.2.stack.tail = t.stack.tail := by
  unfold Table.read
  split <;> rfl

/-- What has been done to the records on top of the saved one is undone. -/
theorem Resumed.pop (h : Resumed main main' unread) : Resumed (main.map Table.pop) (main'.map Table.pop) unread := by
  refine ⟨?_, ?_, ?_⟩
  · rw [tableOf_map_pop, tableOf_map_pop]
    exact h.columns
  · rw [tableOf_map_pop, tableOf_map_pop]
    exact congrArg List.tail h.stack
  · rw [tableOf_map_pop]
    exact h.unread

/-- A record that is read on top of the saved one. -/
theorem resumed_pop_read (main : Option Table) :
    Resumed (main.map Table.pop) ((main.map fun t => t.read.2).map Table.pop) (tableOf main).unread.tail := by
  refine ⟨?_, ?_, ?_⟩
  · rw [tableOf_map_pop, tableOf_map_pop, tableOf_map_read]
    exact columns_read _
  · rw [tableOf_map_pop, tableOf_map_pop, tableOf_map_read]
    exact tail_stack_read _
  · rw [tableOf_map_pop, tableOf_map_read]
    exact Table.unread_read _

/-- If no row is left, nothing is read. -/
theorem Resumed.read_nil {saved : Option Table} (h : Resumed main (saved.map Table.pop) []) :
    (tableOf saved).read.1 = false ∧ Resumed main ((saved.map fun t => t.read.2).map Table.pop) [] := by
  have hunread : (tableOf saved).unread = [] := by
    rw [← Table.unread_pop, ← tableOf_map_pop, h.unread]
  have hr := resumed_pop_read saved
  rw [hunread] at hr
  refine ⟨?_, h.trans hr⟩
  rw [Table.read_fst, hunread]
  rfl

/-- The next row is read on top of the saved record. -/
theorem Resumed.read_cons {saved : Option Table} {row : Row} (h : Resumed main (saved.map Table.pop) (row :: unread)) :
    (tableOf saved).read.1 = true ∧ Resumed main ((saved.map fun t => t.read.2).map Table.pop) unread
      ∧ (tableOf (saved.map fun t => t.read.2)).current = row.fields
      ∧ (tableOf (saved.map fun t => t.read.2)).unread = unread := by
  have hunread : (tableOf saved).unread = row :: unread := by
    rw [← Table.unread_pop, ← tableOf_map_pop, h.unread]
  have hr := resumed_pop_read saved
  rw [hunread] at hr
  refine ⟨?_, h.trans hr, ?_, ?_⟩
  · rw [Table.read_fst, hunread]
    rfl
  · rw [tableOf_map_read, Table.current_read, hunread]
    rfl
  · rw [tableOf_map_read, Table.unread_read, hunread]
    rfl

/-- The columns are not saved with a record. -/
theorem Resumed.columns_of_pop (h : Resumed main (main'.map Table.pop) unread) :
    (tableOf main').columns = (tableOf main).columns := by
  rw [← h.columns, tableOf_map_pop]
  rfl

/-! ## Turns of a counted loop -/

theorem feed_of_counted {saved : Bool} (hl : l.strategy = .counted saved) : a.feed l = .records a.main := by
  unfold Agenda.feed Loop.feedsOnDocuments Strategy.isCounted
  rw [hl]
  rfl

/-- The records when one more run is asked for, and the one from before the loop has been saved. -/
def savedAt (count : Nat) (main : Option Table) : Option Table := if count = 1 then main.map Table.push else main

/-- A loop that does not fetch, and one that has not run yet, moves nothing on. -/
theorem move_still {saved : Bool} (hl : l.strategy = .counted saved) (h : ¬ (l.count ≠ 0 ∧ l.fetch = true)) :
    Turn.move (a.bare l) = .ok true (a.bare l) := by
  rw [Turn.move, Action.get_bind]
  simp only [Agenda.bare, hl, feed_of_counted hl]
  rw [Turn.moveCounted, Action.get_bind]
  rw [if_neg h]
  rfl

theorem readRecord_eq (s : Turn) (hs : s.feed = .records main) :
    Turn.readRecord s
      = .ok (tableOf main).read.1 { s with feed := .records (main.map fun t => t.read.2) } := by
  obtain ⟨loop, tree, feed, scan⟩ := s
  obtain rfl : feed = .records main := hs
  cases main <;> rfl

theorem save_eq (s : Turn) (hs : s.feed = .records main) :
    Turn.save s = .ok () { s with
      loop := { s.loop with strategy := .counted true }, feed := .records (main.map Table.push) } := by
  obtain ⟨loop, tree, feed, scan⟩ := s
  obtain rfl : feed = .records main := hs
  cases main <;> rfl

/-- A loop that fetches, asked for a further run: the record from before the loop is saved, if it has not been, and
    the next record is read, unless the maximum has been reached. -/
theorem move_fetch (hl : l.strategy = .counted (decide (2 ≤ l.count))) (hcount : l.count ≠ 0) (hfetch : l.fetch = true) :
    Turn.move (a.bare l) = if l.max.any (· ≤ l.count)
      then .ok false
        { a.bare l with loop := { l with strategy := .counted true }, feed := .records (savedAt l.count a.main) }
      else .ok (tableOf (savedAt l.count a.main)).read.1
        { a.bare l with
          loop := { l with strategy := .counted true }
          feed := .records ((savedAt l.count a.main).map fun t => t.read.2) } := by
  have hread : ∀ s : Turn, s.feed = .records (savedAt l.count a.main) →
      (if l.max.any (· ≤ l.count) then pure false else Turn.readRecord) s
        = if l.max.any (· ≤ l.count) then .ok false s else .ok (tableOf (savedAt l.count a.main)).read.1
          { s with feed := .records ((savedAt l.count a.main).map fun t => t.read.2) } := by
    intro s hs
    split
    · rfl
    · exact readRecord_eq s hs
  rw [Turn.move, Action.get_bind]
  simp only [Agenda.bare, hl, feed_of_counted hl]
  rw [Turn.moveCounted, Action.get_bind, if_pos ⟨hcount, hfetch⟩]
  dsimp only
  by_cases h1 : l.count = 1
  · have hsaved : savedAt l.count a.main = a.main.map Table.push := if_pos h1
    rw [hsaved] at hread ⊢
    rw [if_pos h1, Action.bind_of_ok (save_eq _ rfl)]
    exact hread _ rfl
  · have hsaved : savedAt l.count a.main = a.main := if_neg h1
    rw [hsaved] at hread ⊢
    rw [if_neg h1, show Strategy.counted true = l.strategy by rw [hl, decide_eq_true (by omega)]]
    exact hread _ rfl

/-- The loop `l`, of which a run has begun, in the records `now`; `main` are the records from before the loop, of
    which some rows are unread. -/
structure AtWork (limits : Limits) (main now : Option Table) (l : Loop) (unread : List Row) : Prop where
  strategy : l.strategy = .counted (limits.fetch && decide (2 ≤ l.count))
  max : l.max = limits.max
  fetch : l.fetch = limits.fetch
  started : 1 ≤ l.count
  resumed : Resumed main (if limits.fetch ∧ 2 ≤ l.count then now.map Table.pop else now) unread

namespace AtWork

variable (h : AtWork limits main a.main l unread)
include h

theorem strategy_of_fetch (hf : limits.fetch = true) : l.strategy = .counted (decide (2 ≤ l.count)) := by
  rw [h.strategy, hf, Bool.true_and]

theorem strategy_of_not_fetch (hf : ¬ limits.fetch = true) : l.strategy = .counted false := by
  rw [h.strategy, Bool.eq_false_iff.mpr hf, Bool.false_and]

/-- The record from before the loop is there when one more run is asked for. -/
theorem saved (hf : limits.fetch = true) : Resumed main ((savedAt l.count a.main).map Table.pop) unread := by
  have hr := h.resumed
  unfold savedAt
  by_cases h1 : l.count = 1
  · rw [if_neg (by omega)] at hr
    rw [if_pos h1, Option.map_map]
    exact (Option.map_id' (x := a.main)).symm ▸ hr
  · rw [if_pos ⟨hf, by have := h.started; omega⟩] at hr
    rw [if_neg h1]
    exact hr

omit h in
/-- The body of the loop has been run. -/
theorem of_resumed {now now' : Option Table} (h : AtWork limits main now l unread) (hr : Resumed now now' unread') :
    AtWork limits main now' l unread' := by
  refine ⟨h.strategy, h.max, h.fetch, h.started, ?_⟩
  have hs := h.resumed
  by_cases hc : limits.fetch = true ∧ 2 ≤ l.count
  · rw [if_pos hc] at hs ⊢
    exact hs.trans hr.pop
  · rw [if_neg hc] at hs ⊢
    exact hs.trans hr

end AtWork

/-- A loop that has reached its maximum, or would have to fetch and cannot, ends. -/
theorem turn_ends (h : AtWork limits main a.main l unread)
    (hend : limits.max.any (· ≤ l.count) = true ∨ further? limits.fetch record unread = none) :
    ∃ now, a.turn l body behind = some (false, { a with main := now, key := l.key, ahead := behind })
      ∧ Resumed main now unread := by
  have hcount : l.count ≠ 0 := by have := h.started; omega
  by_cases hf : limits.fetch = true
  · have hs := h.saved hf
    have hmove := move_fetch (a := a) (h.strategy_of_fetch hf) hcount (h.fetch.trans hf)
    rw [h.max] at hmove
    unfold Agenda.turn
    by_cases hreached : limits.max.any (· ≤ l.count) = true
    · rw [if_pos hreached] at hmove
      rw [hmove]
      exact ⟨_, rfl, hs⟩
    · rw [if_neg hreached] at hmove
      -- no row is left
      obtain rfl : unread = [] := by
        have hnone := hend.resolve_left hreached
        cases unread with
        | nil => rfl
        | cons => cases hnone
      obtain ⟨hread, hr⟩ := hs.read_nil
      rw [hmove, hread]
      exact ⟨_, rfl, hr⟩
  · have hstill : further? limits.fetch record unread ≠ none := by
      rw [Bool.eq_false_iff.mpr hf]
      cases unread <;> exact nofun
    have hreached := hend.resolve_right hstill
    have hr := h.resumed
    rw [if_neg fun hc => hf hc.1] at hr
    refine ⟨a.main, ?_, hr⟩
    unfold Agenda.turn
    rw [move_still (h.strategy_of_not_fetch hf) fun hc => hf (h.fetch.symm.trans hc.2)]
    have hmax : l.max.any (· < l.count + 1) = true := by
      rw [h.max]
      simpa only [Nat.lt_succ_iff] using hreached
    simp only [hmax, Bool.not_true, Bool.and_false]
    unfold Turn.restored
    simp only [Agenda.bare, h.strategy_of_not_fetch hf, feed_of_counted (h.strategy_of_not_fetch hf)]
    rfl

/-- A loop that has not reached its maximum, and can fetch if it has to, goes on. -/
theorem turn_again {rest : List Row} (h : AtWork limits main a.main l unread) (hbody : body ≠ [])
    (hmax : limits.max.any (· ≤ l.count) = false)
    (hmore : further? limits.fetch (tableOf main).current unread = some (record, rest)) :
    ∃ now l', a.turn l body behind = some (true, { a with
        main := now, key := l.bodyKey, ahead := body, outer := .loop l' body behind :: a.outer })
      ∧ AtWork limits main now l' rest ∧ l'.count = l.count + 1 ∧ l'.key = l.key ∧ l'.bodyKey = l.bodyKey
      ∧ (tableOf now).columns = (tableOf main).columns ∧ (tableOf now).current = record
      ∧ (tableOf now).unread = rest := by
  have hcount : l.count ≠ 0 := by have := h.started; omega
  have hempty : body.isEmpty = false := Bool.eq_false_iff.mpr fun hb => hbody (List.isEmpty_iff.mp hb)
  have hpassed : l.max.any (· < l.count + 1) = false := by
    rw [h.max]
    simpa only [Nat.lt_succ_iff] using hmax
  by_cases hf : limits.fetch = true
  · have hs := h.saved hf
    have hmove := move_fetch (a := a) (h.strategy_of_fetch hf) hcount (h.fetch.trans hf)
    rw [h.max, if_neg (Bool.eq_false_iff.mp hmax)] at hmove
    rw [hf] at hmore
    cases unread with
    | nil => cases hmore
    | cons row unread =>
      obtain ⟨rfl, rfl⟩ := Prod.mk.inj (Option.some.inj hmore)
      obtain ⟨hread, hresumed, hcurrent, hunread⟩ := hs.read_cons
      unfold Agenda.turn
      rw [hmove, hread]
      simp only [hempty, hpassed]
      refine ⟨(savedAt l.count a.main).map fun t => t.read.2,
        { l with strategy := .counted true, count := l.count + 1, max := limits.max }, rfl,
        ⟨?_, rfl, h.fetch, Nat.le_add_left 1 _, ?_⟩, rfl, rfl, rfl, hresumed.columns_of_pop, hcurrent, hunread⟩
      · show Strategy.counted true = _
        rw [hf, decide_eq_true (Nat.succ_le_succ h.started)]
        rfl
      · rw [if_pos ⟨hf, Nat.succ_le_succ h.started⟩]
        exact hresumed
  · have hr := h.resumed
    rw [if_neg fun hc => hf hc.1] at hr
    obtain ⟨rfl, rfl⟩ : (tableOf main).current = record ∧ unread = rest := by
      rw [Bool.eq_false_iff.mpr hf] at hmore
      cases unread <;> exact Prod.mk.inj (Option.some.inj hmore)
    unfold Agenda.turn
    rw [move_still (h.strategy_of_not_fetch hf) fun hc => hf (h.fetch.symm.trans hc.2)]
    simp only [hempty, hpassed]
    refine ⟨a.main, { l with count := l.count + 1 }, ?_, ⟨?_, h.max, h.fetch, Nat.le_add_left 1 _, ?_⟩, rfl, rfl, rfl,
      hr.columns, hr.current, hr.unread⟩
    · simp only [Agenda.bare, feed_of_counted (h.strategy_of_not_fetch hf)]
      rfl
    · rw [Bool.eq_false_iff.mpr hf]
      exact h.strategy_of_not_fetch hf
    · rw [if_neg fun hc => hf hc.1]
      exact hr

/-! ## What a loop declares -/

theorem attr?_ofElement (e : Element) (name : String) : (Tree.ofElement e).attr? 0 name = e.attr? name := by
  unfold Tree.attr? Element.attr?
  rw [show ((Tree.ofElement e).node 0).attrs = e.attrs from
    congrArg Node.attrs (Tree.grafted_ofElement e).holds.content]

theorem flag?_ofElement {name : String} {b : Bool} (h : flag? e name = some b) :
    ∃ flag, Loop.flag? (Tree.ofElement e) 0 name = .ok flag ∧ flag.getD false = b := by
  unfold flag? at h
  unfold Loop.flag?
  rw [attr?_ofElement]
  cases hv : e.attr? name with
  | none =>
    rw [hv] at h
    exact ⟨none, rfl, Option.some.inj h⟩
  | some text =>
    simp only [hv] at h ⊢
    split at h
    · rename_i hword
      rw [if_pos hword]
      exact ⟨_, rfl, Option.some.inj h⟩
    · rename_i hword
      rw [if_neg hword]
      split at h
      · rename_i hword'
        rw [if_pos hword']
        exact ⟨_, rfl, Option.some.inj h⟩
      · cases h

theorem max?_ofElement {max : Option Nat} (h : max? e = some max) :
    Loop.max? (Tree.ofElement e) 0 = .ok max := by
  unfold max? at h
  unfold Loop.max?
  rw [attr?_ofElement, attr?_ofElement]
  cases hm : e.attr? "max" with
  | some text =>
    simp only [hm] at h ⊢
    split at h
    · rename_i n hn
      cases h
      simp only [Loop.readMax, hn]
      rw [if_neg (show ¬ Int.ofNat n < 0 from Int.not_lt.mpr (Int.natCast_nonneg n))]
      rfl
    · cases h
  | none =>
    cases hx : e.attr? "xmax" with
    | some source =>
      simp only [hm, hx] at h
      cases h
    | none =>
      simp only [hm, hx] at h ⊢
      cases h
      rfl

/-- The loop that an element with limits declares. -/
theorem declared_of_limits (h : limits? e = some limits) (key : String) (c : Combined) :
    ∃ unrolling, Loop.declared (Tree.ofElement e) 0 key c
      = .ok ⟨.counted false, 0, limits.max, limits.fetch, unrolling, key, keyIn key e, 0⟩ := by
  unfold limits? at h
  split at h
  · rename_i max fetch unrolling htype hmax hfetch hunrolling
    obtain ⟨flag, hflag, rfl⟩ := flag?_ofElement hfetch
    obtain ⟨flag', hflag', -⟩ := flag?_ofElement hunrolling
    split at h
    · cases h
    · rename_i hbounded
      cases h
      have hstrategy : Loop.strategyOf (Tree.ofElement e) 0 c = .ok (.counted false) := by
        unfold Loop.strategyOf
        rw [attr?_ofElement]
        cases ht : e.attr? "type" with
        | none => rfl
        | some type =>
          rw [ht] at htype
          obtain rfl : type = "" := htype
          rfl
      have hkey : (Tree.ofElement e).keyPath key 0 = keyIn key e := by
        unfold Tree.keyPath keyIn
        rw [attr?_ofElement]
      refine ⟨flag'.getD false, ?_⟩
      have hok : (Strategy.isCounted (.counted false) && !flag.getD !Strategy.isCounted (.counted false)
          && max.isNone) = false := by
        rw [Bool.and_comm]
        exact Bool.eq_false_iff.mpr hbounded
      simp only [Loop.declared, hstrategy, hflag, hflag', max?_ofElement hmax, hkey, bind, Except.bind, hok]
      rfl
  · cases h

theorem bounded_of_limits (h : limits? e = some limits) (hm : limits.max = none) : limits.fetch = true := by
  unfold limits? at h
  split at h
  · split at h
    · cases h
    · rename_i hbounded
      cases h
      cases hm
      simpa using hbounded
  · cases h

/-! ## Elements are taken off -/

/-- From an agenda, steps lead to another one, in the records `main` again, with the bytes that are given; or it
    fails. -/
def Unfolds (main : Option Table) (a : Agenda) (given : Given) (next : Option Table → Agenda) : Prop :=
  match given with
  | .ok (bs, unread) => ∃ now, Leads false a bs (next now) ∧ Resumed main now unread
  | .error _ => ∃ bs, Outcome false a bs false

variable {given : Given} {next next' : Option Table → Agenda} {a₁ : Agenda}

theorem Unfolds.of_leads (hl : Leads false a [] a₁) (h : Unfolds main a₁ given next) : Unfolds main a given next := by
  unfold Unfolds at h ⊢
  split
  · obtain ⟨now, hleads, hr⟩ := h
    exact ⟨now, hl.trans hleads, hr⟩
  · obtain ⟨bs, hout⟩ := h
    exact ⟨bs, hl _ _ hout⟩

theorem Unfolds.of_resumed (hr : Resumed main main' unread) (h : Unfolds main' a given next) :
    Unfolds main a given next := by
  unfold Unfolds at h ⊢
  split
  · obtain ⟨now, hleads, hr'⟩ := h
    exact ⟨now, hleads, hr.trans hr'⟩
  · exact h

theorem Unfolds.mono (h : Unfolds main a given next) (hn : ∀ now, Leads false (next now) [] (next' now)) :
    Unfolds main a given next' := by
  unfold Unfolds at h ⊢
  split
  · obtain ⟨now, hleads, hr⟩ := h
    refine ⟨now, ?_, hr⟩
    have := hleads.trans (hn now)
    rwa [List.append_nil] at this
  · exact h

theorem Unfolds.andThen {more : List Row → Given} (h : Unfolds main' a given next)
    (hmore : ∀ now bs unread, given = .ok (bs, unread) → Resumed main' now unread →
      Unfolds main (next now) (more unread) next') :
    Unfolds main a (andThen given more) next' := by
  unfold Unfolds at h
  split at h
  · rename_i bs unread
    obtain ⟨now, hleads, hr⟩ := h
    have hm := hmore now bs unread rfl hr
    unfold Unfolds Meaning.andThen at *
    simp only [bind, Except.bind]
    cases hg : more unread with
    | error e =>
      rw [hg] at hm
      obtain ⟨cs, hout⟩ := hm
      exact ⟨_, hleads _ _ hout⟩
    | ok r =>
      obtain ⟨cs, rest⟩ := r
      rw [hg] at hm
      obtain ⟨now', hleads', hr'⟩ := hm
      exact ⟨now', hleads.trans hleads', hr'⟩
  · exact h

/-- A loop that ends leads to what is behind it, though nothing may be left. -/
theorem leads_of_ended {outer : List Surrounding} (hahead : a.ahead = [])
    (houter : a.outer = .loop l body behind :: outer)
    (hturn : { a with outer }.turn l body behind = some (false, a₁)) (hnext : a₁.ahead = behind)
    (hrest : a₁.outer = outer) : Leads false a [] a₁ := by
  have hstep : a.step false = if behind.isEmpty && outer.isEmpty then .ends else .goesOn [] a₁ := by
    unfold Agenda.step
    rw [hahead]
    show a.leave false a.outer = _
    rw [houter, Agenda.leave, hturn]
  by_cases hlast : behind.isEmpty && outer.isEmpty
  · -- nothing is left to do, and this is the end
    rw [if_pos hlast] at hstep
    rw [Bool.and_eq_true, List.isEmpty_iff, List.isEmpty_iff] at hlast
    have hends : a₁.step false = .ends := by
      unfold Agenda.step
      rw [hnext, hlast.1]
      show a₁.leave false a₁.outer = _
      rw [hrest, hlast.2]
      rfl
    intro cs ok hout
    obtain ⟨rfl, rfl⟩ := hout.unique (.ends hends)
    exact .ends hstep
  · rw [if_neg hlast] at hstep
    exact .of_step hstep

/-- A loop in which no further run begins. -/
theorem unfolds_ended {outer : List Surrounding} (h : AtWork limits main a.main l unread) (hahead : a.ahead = [])
    (houter : a.outer = .loop l body behind :: outer)
    (hend : limits.max.any (· ≤ l.count) = true ∨ further? limits.fetch record unread = none) :
    Unfolds main a (.ok ([], unread)) fun now => { a with main := now, key := l.key, ahead := behind, outer } := by
  obtain ⟨now, hturn, hr⟩ : ∃ now, Agenda.turn { a with outer } l body behind
      = some (false, { a with main := now, key := l.key, ahead := behind, outer }) ∧ Resumed main now unread :=
    turn_ends h hend
  exact ⟨now, leads_of_ended hahead houter hturn rfl rfl, hr⟩

/-- The further runs of a loop, of which there are at most `n`. -/
theorem unfolds_further {n : Nat} {outer : List Surrounding}
    (hbody : ∀ a : Agenda, a.ahead = body → Unfolds a.main a
      (meaningAll (tableOf a.main).columns body a.key (tableOf a.main).current (tableOf a.main).unread)
      fun now => { a with main := now, ahead := [] })
    (hne : body ≠ []) (h : AtWork limits main a.main l unread) (hahead : a.ahead = [])
    (houter : a.outer = .loop l body behind :: outer)
    (hmax : ∀ m, limits.max = some m → n + l.count = m)
    (hfetch : limits.max = none → limits.fetch = true ∧ unread.length ≤ n) :
    Unfolds main a
      (furtherRuns (meaningAll (tableOf main).columns body l.bodyKey) limits.fetch (tableOf main).current n unread)
      fun now => { a with main := now, key := l.key, ahead := behind, outer } := by
  induction n generalizing a l unread with
  | zero =>
    refine unfolds_ended h hahead houter (?_ : _ ∨ further? limits.fetch (tableOf main).current unread = none)
    cases hm : limits.max with
    | some m => exact .inl (decide_eq_true (by have := hmax m hm; omega))
    | none =>
      obtain ⟨hf, hlen⟩ := hfetch hm
      rw [hf, List.length_eq_zero_iff.mp (Nat.le_zero.mp hlen)]
      exact .inr rfl
  | succ n ih =>
    rw [furtherRuns]
    cases hmore : further? limits.fetch (tableOf main).current unread with
    | none => exact unfolds_ended h hahead houter (.inr hmore)
    | some taken =>
      obtain ⟨record, rest⟩ := taken
      have hbelow : limits.max.any (· ≤ l.count) = false := by
        cases hm : limits.max with
        | some m => exact decide_eq_false (by have := hmax m hm; omega)
        | none => rfl
      obtain ⟨now, l', hturn, hwork, hcount, hkey, hbodyKey, hcolumns, hcurrent, hunread⟩ :
          ∃ now l', Agenda.turn { a with outer } l body behind = some (true, { a with
            main := now, key := l.bodyKey, ahead := body, outer := .loop l' body behind :: outer }) ∧ _ :=
        turn_again h hne hbelow hmore
      have hstep : a.step false = .goesOn [] { a with
          main := now, key := l.bodyKey, ahead := body, outer := .loop l' body behind :: outer } := by
        unfold Agenda.step
        rw [hahead]
        show a.leave false a.outer = _
        rw [houter, Agenda.leave, hturn]
      have hrun := hbody { a with
        main := now, key := l.bodyKey, ahead := body, outer := .loop l' body behind :: outer } rfl
      simp only [hcolumns, hcurrent, hunread] at hrun
      refine .of_leads (.of_step hstep) (hrun.andThen fun now' bs unread' hgiven hr => ?_)
      -- the run may have read rows, so there are no more of them than before
      have hrest := ih (a := { a with
        main := now', key := l.bodyKey, ahead := [], outer := .loop l' body behind :: outer })
        (hwork.of_resumed hr) rfl rfl (fun m hm => by have := hmax m hm; omega) fun hm => by
          obtain ⟨hf, hlen⟩ := hfetch hm
          refine ⟨hf, Nat.le_trans (suffix_meaningAll hgiven).length_le ?_⟩
          rw [hf] at hmore
          cases unread with
          | nil => cases hmore
          | cons row unread =>
            cases hmore
            exact Nat.le_of_succ_le_succ hlen
      simp only [hkey, hbodyKey] at hrest
      exact hrest

/-- A loop, entered in the state `l`. -/
theorem unfolds_loop {cs : List Element} {unrolling : Bool}
    (hstep : a.step false = (a.turn ⟨.counted false, 0, limits.max, limits.fetch, unrolling, a.key, key, 0⟩ cs es).elim
      .fails fun r => .goesOn [] r.2)
    (hbounded : limits.max = none → limits.fetch = true)
    (hbody : ∀ a : Agenda, a.ahead = cs → Unfolds a.main a
      (meaningAll (tableOf a.main).columns cs a.key (tableOf a.main).current (tableOf a.main).unread)
      fun now => { a with main := now, ahead := [] }) :
    Unfolds a.main a (if cs.isEmpty then .ok ([], (tableOf a.main).unread)
        else runs (meaningAll (tableOf a.main).columns cs key) limits (tableOf a.main).current
          (tableOf a.main).unread)
      fun now => { a with main := now, ahead := es } := by
  unfold Agenda.turn at hstep
  rw [move_still rfl fun hc => hc.1 rfl] at hstep
  dsimp only at hstep
  by_cases hruns : cs = [] ∨ limits.max = some 0
  · -- there is nothing to run, or no run
    have hgiven : (if cs.isEmpty then .ok ([], (tableOf a.main).unread)
        else runs (meaningAll (tableOf a.main).columns cs key) limits (tableOf a.main).current
          (tableOf a.main).unread) = .ok ([], (tableOf a.main).unread) := by
      rcases hruns with rfl | hmax
      · rfl
      · rw [runs, hmax]
        split <;> rfl
    have hnot : (true && !cs.isEmpty && !limits.max.any (· < 0 + 1)) = false := by
      rcases hruns with rfl | hmax
      · rfl
      · rw [hmax]
        exact Bool.and_false _
    rw [hgiven]
    rw [if_neg (Bool.eq_false_iff.mp hnot)] at hstep
    exact ⟨a.main, .of_step hstep, .refl _⟩
  · obtain ⟨hne, hmax⟩ := not_or.mp hruns
    have hempty : cs.isEmpty = false := Bool.eq_false_iff.mpr fun he => hne (List.isEmpty_iff.mp he)
    have hany : limits.max.any (· < 0 + 1) = false := by
      cases hm : limits.max with
      | none => rfl
      | some m => exact decide_eq_false fun hlt => hmax (by rw [hm, Nat.lt_one_iff.mp hlt])
    rw [if_pos (by rw [hempty, hany]; rfl)] at hstep
    rw [if_neg (by rw [hempty]; exact Bool.false_ne_true)]
    obtain ⟨n, hn⟩ : ∃ n, limits.max.getD ((tableOf a.main).unread.length + 1) = n + 1 := by
      cases hm : limits.max with
      | none => exact ⟨_, rfl⟩
      | some m => exact Nat.exists_eq_succ_of_ne_zero fun h0 => hmax (by rw [hm]; exact congrArg some h0)
    rw [runs, hn]
    refine .of_leads (.of_step hstep) ((hbody _ rfl).andThen fun now bs unread hgiven hr => ?_)
    have hwork : AtWork limits a.main now ⟨.counted false, 1, limits.max, limits.fetch, unrolling, a.key, key, 0⟩
        unread := by
      refine ⟨(congrArg Strategy.counted (Bool.and_false _)).symm, rfl, rfl, Nat.le_refl 1, ?_⟩
      rw [if_neg fun hc => absurd hc.2 (Nat.not_succ_le_self 1)]
      exact hr
    have houter : Agenda.outer { a with
        main := now, key, ahead := [], outer := .loop ⟨.counted false, 1, limits.max, limits.fetch, unrolling, a.key, key, 0⟩
          cs es :: a.outer } = .loop _ cs es :: a.outer := rfl
    refine unfolds_further hbody hne hwork rfl houter (fun m hm => ?_) fun hm => ⟨hbounded hm, ?_⟩
    · rw [hm] at hn
      exact hn.symm
    · rw [hm] at hn
      rw [← Nat.succ.inj hn]
      exact (suffix_meaningAll hgiven).length_le

mutual

/-- What an element gives. -/
theorem unfolds : ∀ {e : Element}, plain e = true → ∀ (a : Agenda) (es : List Element), a.ahead = e :: es →
    Unfolds a.main a
      (meaning (tableOf a.main).columns e a.key (tableOf a.main).current (tableOf a.main).unread)
      fun now => { a with main := now, ahead := es }
  | .mk n attrs x c cs, hp, a, es, ha => by
    have hstep : a.step false = a.visit (.mk n attrs x c cs) es := by
      unfold Agenda.step
      rw [ha]
    rw [meaning]
    rw [plain] at hp
    unfold Agenda.visit at hstep
    rw [show Tag.ofName? (Element.mk n attrs x c cs).name = Tag.ofName? n from rfl] at hstep
    cases htag : Tag.ofName? n with
    | none =>
      rw [htag] at hp
      cases hp
    | some tag =>
      simp only [htag] at hp hstep ⊢
      cases tag with
      | item =>
        have htype : (Element.mk n attrs x c cs).attr? "type" = none :=
          Option.isNone_iff_eq_none.mp (Bool.and_eq_true _ _ ▸ hp).2
        have hvalue : a.recordValue (.mk n attrs x c cs)
            = lookup (tableOf a.main).columns (tableOf a.main).current (keyIn a.key (.mk n attrs x c cs)) := by
          unfold Agenda.recordValue
          rw [htype]
          exact recordValue_eq a.main _
        rw [hvalue] at hstep
        unfold field Except.map
        cases hb : fieldBytes (.mk n attrs x c cs) (lookup (tableOf a.main).columns (tableOf a.main).current
            (keyIn a.key (.mk n attrs x c cs))) with
        | error err =>
          rw [hb] at hstep
          exact ⟨[], .fails hstep⟩
        | ok bytes =>
          rw [hb] at hstep
          exact ⟨a.main, .of_step hstep, .refl _⟩
      | items =>
        cases cs with
        | nil =>
          rw [meaningAll]
          exact ⟨a.main, .of_step hstep, .refl _⟩
        | cons d ds =>
          have hin := unfoldsAll hp { a with
            key := keyIn a.key (.mk n attrs x c (d :: ds)), ahead := d :: ds, outer := .group a.key es :: a.outer } rfl
          exact (hin.of_leads (.of_step hstep)).mono fun now => .of_step rfl
      | loop =>
        obtain ⟨hlimits, hcs⟩ := Bool.and_eq_true _ _ ▸ hp
        obtain ⟨limits, hl⟩ := Option.isSome_iff_exists.mp hlimits
        obtain ⟨unrolling, hd⟩ := declared_of_limits hl a.key a.secondary
        rw [hd] at hstep
        rw [hl]
        exact unfolds_loop hstep (bounded_of_limits hl) fun a ha => unfoldsAll hcs a ha
      | nop => exact ⟨a.main, .of_step hstep, .refl _⟩
      | document | writer => cases hp

/-- What the elements of a list give. -/
theorem unfoldsAll : ∀ {es : List Element}, plainAll es = true → ∀ a : Agenda, a.ahead = es →
    Unfolds a.main a
      (meaningAll (tableOf a.main).columns es a.key (tableOf a.main).current (tableOf a.main).unread)
      fun now => { a with main := now, ahead := [] }
  | [], _, a, ha => by
    rw [meaningAll]
    refine ⟨a.main, ?_, .refl _⟩
    rw [← ha]
    exact .refl a
  | e :: es, hp, a, ha => by
    rw [plainAll, Bool.and_eq_true] at hp
    rw [meaningAll]
    refine (unfolds hp.1 a es ha).andThen fun now bs unread _ hr => ?_
    have hrest := unfoldsAll hp.2 { a with main := now, ahead := es } rfl
    dsimp only at hrest
    rw [hr.columns, hr.current, hr.unread] at hrest
    exact hrest.of_resumed hr

end

/-! ## Templates -/

/-- What is left to do when a template has just been begun: its elements, under no key. -/
def Agenda.beginning (es : List Element) (main : Option Table) (secondary : Combined) : Agenda :=
  ⟨"", es, [], main, secondary⟩

/-- What becomes of a template is what it means. -/
theorem outcome_of_template (table : Option Table) (c : Combined) (hp : plainTemplate e = true) :
    match ofTemplate e table with
    | .ok bs => Outcome false (.beginning e.children (table.map fun t => t.read.2) c) bs true
    | .error _ => ∃ bs, Outcome false (.beginning e.children (table.map fun t => t.read.2) c) bs false := by
  have hplain : plainAll e.children = true := (Bool.and_eq_true _ _ ▸ hp).2
  have hun := unfoldsAll hplain (.beginning e.children (table.map fun t => t.read.2) c) rfl
  rw [show (Agenda.beginning e.children (table.map fun t => t.read.2) c).main = table.map fun t => t.read.2 from rfl,
    tableOf_map_read] at hun
  unfold ofTemplate Except.map
  dsimp only [Agenda.beginning, tableOf] at hun ⊢
  generalize (table.getD Table.empty).read.2 = t at hun ⊢
  cases hm : meaningAll t.columns e.children "" t.current t.unread with
  | error err =>
    rw [hm] at hun
    exact hun
  | ok given =>
    obtain ⟨bs, unread⟩ := given
    rw [hm] at hun
    obtain ⟨now, hleads, -⟩ := hun
    have := hleads [] true (.ends rfl)
    rwa [List.append_nil] at this

end Stencil.Meaning
