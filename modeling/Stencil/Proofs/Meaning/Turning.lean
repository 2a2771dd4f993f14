/-
  A loop is asked for one more run, wherever it stands.

  Whether a loop runs again depends on the loop and on what it moves on, but not on the node that it stands at nor on
  the documents around it.  Two turns that are the same but for those (`Same`) come out the same (`agree_move`).  Of
  secondary documents only the records count, and where the cursor stands (`Combined.Alike`).

  So a turn of a loop in a walk is a turn of the loop on an agenda with the same records (`turn_of_ok`), and the loop is
  declared there as it is in the walk (`declared_alike`).
-/
import Stencil.Proofs.Loop.Calls
import Stencil.Proofs.Meaning.Agenda
import Stencil.Proofs.Walk.OneByOne

set_option autoImplicit false

namespace Stencil

/-! ## Secondary documents with the same records -/

namespace Combined

variable {c c' : Combined} {i : Nat}

/-- Two lists of documents with the same records, and with the cursor at the same place. -/
structure Alike (c c' : Combined) : Prop where
  cursor : c'.cursor = c.cursor
  tables : c'.entries.map CombinedEntry.table = c.entries.map CombinedEntry.table

theorem Alike.refl (c : Combined) : Alike c c := ⟨rfl, rfl⟩

theorem Alike.size (h : Alike c c') : c'.size = c.size := by
  have hlen := congrArg List.length h.tables
  rwa [List.length_map, List.length_map] at hlen

theorem Alike.currentIndex (h : Alike c c') : c'.currentIndex = c.currentIndex := by
  unfold Combined.currentIndex
  rw [h.cursor, h.size]

theorem tableAt?_eq (c : Combined) (i : Nat) : c.tableAt? i = (c.entries.map CombinedEntry.table)[i]?.join := by
  unfold tableAt?
  rw [List.getElem?_map]
  cases c.entries[i]? <;> rfl

theorem Alike.tableAt? (h : Alike c c') (i : Nat) : c'.tableAt? i = c.tableAt? i := by
  rw [tableAt?_eq, tableAt?_eq, h.tables]

/-- The table of the entry that the cursor stands on. -/
theorem map_table_current? (c : Combined) :
    c.current?.map CombinedEntry.table = c.currentIndex.bind ((c.entries.map CombinedEntry.table)[·]?) := by
  unfold current?
  cases c.currentIndex with
  | none => rfl
  | some i => exact List.getElem?_map.symm

theorem Alike.current? (h : Alike c c') :
    c'.current?.map CombinedEntry.table = c.current?.map CombinedEntry.table := by
  rw [map_table_current?, map_table_current?, h.currentIndex, h.tables]

theorem Alike.field? (h : Alike c c') (column : String) : c'.field? column = c.field? column := by
  have hfield : ∀ c : Combined, c.field? column
      = (c.current?.map CombinedEntry.table).map fun t => (t.map (·.field column)).getD "" := by
    intro c
    unfold Combined.field?
    rw [Option.map_map]
    rfl
  rw [hfield, hfield, h.current?]

theorem Alike.advance (h : Alike c c') : Alike c.advance c'.advance := by
  unfold Combined.advance
  rw [h.cursor, h.size]
  split
  · split
    · exact h
    · exact ⟨rfl, h.tables⟩
  · split
    · exact ⟨rfl, h.tables⟩
    · exact h

theorem Alike.setTable (h : Alike c c') (i : Nat) (t : Table) : Alike (c.setTable i t) (c'.setTable i t) := by
  refine ⟨h.cursor, ?_⟩
  have hmap : ∀ c : Combined, (c.setTable i t).entries.map CombinedEntry.table
      = (c.entries.map CombinedEntry.table).modify i fun _ => some t := by
    intro c
    refine List.ext_getElem? fun j => ?_
    unfold Combined.setTable
    rw [List.getElem?_map, List.getElem?_modify, List.getElem?_modify, List.getElem?_map]
    cases c.entries[j]? with
    | none => rfl
    | some e => split <;> rfl
  rw [hmap, hmap, h.tables]

theorem Alike.readAt (h : Alike c c') (i : Nat) :
    (c'.readAt i).1 = (c.readAt i).1 ∧ Alike (c.readAt i).2 (c'.readAt i).2 := by
  unfold Combined.readAt
  rw [h.tableAt?]
  split
  · exact ⟨rfl, h.setTable i _⟩
  · exact ⟨rfl, h⟩

end Combined

/-- What a loop moves on, with the same records. -/
inductive Feed.Alike : Feed → Feed → Prop
  | records (table : Option Table) : Feed.Alike (.records table) (.records table)
  | documents {c c' : Combined} (h : c.Alike c') : Feed.Alike (.documents c) (.documents c')

namespace Loop.Turn

variable {s s' r r' : Turn} {c c' : Combined} {α β : Type}

/-! ## Moving on -/

/-- Two loops at work that are the same, but for where they stand. -/
structure Same (s s' : Turn) : Prop where
  loop : s'.loop = { s.loop with anchor := s'.loop.anchor }
  feed : s.feed.Alike s'.feed

/-- Two outcomes that are the same, or both of them failures. -/
def Agree : EStateM.Result Error Turn α → EStateM.Result Error Turn α → Prop
  | .ok a s, .ok a' s' => a' = a ∧ Same s s'
  | .error _ _, .error _ _ => True
  | _, _ => False

theorem agree_bind {x x' : Action Turn α} {f f' : α → Action Turn β} (h : Agree (x s) (x' s'))
    (hf : ∀ a r r', Same r r' → Agree (f a r) (f' a r')) : Agree ((x >>= f) s) ((x' >>= f') s') := by
  cases hx : x s with
  | ok a r =>
    cases hx' : x' s' with
    | ok a' r' =>
      rw [hx, hx'] at h
      obtain ⟨rfl, hr⟩ := h
      rw [Action.bind_of_ok hx, Action.bind_of_ok hx']
      exact hf _ _ _ hr
    | error e' r' =>
      rw [hx, hx'] at h
      exact h.elim
  | error e r =>
    cases hx' : x' s' with
    | ok a' r' =>
      rw [hx, hx'] at h
      exact h.elim
    | error e' r' =>
      rw [Action.bind_of_error hx, Action.bind_of_error hx']
      trivial

theorem agree_pure (a : α) (h : Same s s') : Agree ((pure a : Action Turn α) s) ((pure a : Action Turn α) s') :=
  ⟨rfl, h⟩

theorem agree_save (h : Same s s') : Agree (save s) (save s') := by
  obtain ⟨l, t, feed, scan⟩ := s
  obtain ⟨l', t', feed', scan'⟩ := s'
  obtain ⟨hl, hf⟩ := h
  refine ⟨rfl, by dsimp only at hl ⊢; rw [hl], ?_⟩
  cases hf with
  | records table => cases table <;> exact .records _
  | documents h => exact .documents h

theorem agree_readRecord (h : Same s s') : Agree (readRecord s) (readRecord s') := by
  obtain ⟨l, t, feed, scan⟩ := s
  obtain ⟨l', t', feed', scan'⟩ := s'
  obtain ⟨hl, hf⟩ := h
  cases hf with
  | records table =>
    cases table with
    | none => exact ⟨rfl, hl, .records _⟩
    | some table => exact ⟨rfl, hl, .records _⟩
  | documents h => exact ⟨rfl, hl, .documents h⟩

theorem agree_readCurrent (h : Same s s') (hc : c.Alike c') : Agree (readCurrent c s) (readCurrent c' s') := by
  unfold readCurrent
  rw [hc.currentIndex]
  cases c.currentIndex with
  | none => exact agree_pure _ h
  | some i => exact ⟨(hc.readAt i).1, h.loop, .documents (hc.readAt i).2⟩

theorem agree_moveCounted {reached : Bool} (h : Same s s') : Agree (moveCounted reached s) (moveCounted reached s') := by
  have hread : ∀ {r r'}, Same r r' → Agree ((if reached then pure false else readRecord) r)
      ((if reached then pure false else readRecord) r') := by
    intro r r' hr
    split
    · exact agree_pure false hr
    · exact agree_readRecord hr
  rw [moveCounted, Action.get_bind, Action.get_bind, h.loop]
  dsimp only
  split
  · split
    · exact agree_bind (agree_save h) fun _ _ _ hr => hread hr
    · exact hread h
  · exact agree_pure true h

theorem agree_moveDocuments {previous : Option Nat} (h : Same s s') (hc : c.Alike c') :
    Agree (moveDocuments c previous s) (moveDocuments c' previous s') := by
  rw [moveDocuments, moveDocuments, Action.get_bind, Action.get_bind, h.loop, hc.cursor, hc.size]
  dsimp only [Combined.next]
  rw [hc.advance.currentIndex]
  split
  · have hnext : Same { s with feed := .documents c.advance } { s' with feed := .documents c'.advance } :=
      ⟨h.loop, .documents hc.advance⟩
    rw [Action.modify_bind, Action.modify_bind]
    split
    · exact agree_bind (agree_readCurrent hnext hc.advance) fun _ _ _ hr => agree_pure _ hr
    · exact agree_pure _ hnext
  · split
    · exact agree_pure false h
    · split
      · trivial
      · refine ⟨rfl, ?_, h.feed⟩
        dsimp only
        rw [h.loop]

theorem agree_moveRecords {previous : Option Int} {reached : Bool} (h : Same s s') (hc : c.Alike c') :
    Agree (moveRecords c previous reached s) (moveRecords c' previous reached s') := by
  rw [moveRecords, moveRecords, Action.get_bind, Action.get_bind, h.loop]
  have hcur := hc.current?
  cases hx : c.current? with
  | none =>
    rw [hx] at hcur
    rw [Option.map_eq_none_iff.mp hcur]
    trivial
  | some e =>
    rw [hx] at hcur
    obtain ⟨e', he', ht⟩ := Option.map_eq_some_iff.mp hcur
    rw [he']
    dsimp only
    split
    · split
      · exact agree_pure false h
      · exact agree_bind (agree_readCurrent h hc) fun _ _ _ hr => agree_pure _ hr
    · rw [ht]
      cases e.table with
      | none => exact agree_pure false h
      | some t =>
        dsimp only
        split
        · exact agree_pure false h
        · split
          · trivial
          · refine ⟨rfl, ?_, h.feed⟩
            dsimp only
            rw [h.loop]

/-- Whether a loop moves on, and to where, does not depend on where it stands. -/
theorem agree_move (h : Same s s') : Agree (move s) (move s') := by
  have hf := h.feed
  rw [move, Action.get_bind, Action.get_bind, h.loop]
  generalize hfeed : s.feed = feed at hf
  generalize hfeed' : s'.feed = feed' at hf
  dsimp only
  cases s.loop.strategy with
  | counted stacked =>
    cases hf with
    | records table => exact agree_moveCounted h
    | documents hc => trivial
  | documents previous =>
    cases hf with
    | records table => trivial
    | documents hc => exact agree_moveDocuments h hc
  | records previous =>
    cases hf with
    | records table => trivial
    | documents hc => exact agree_moveRecords h hc

/-! ## Asking -/

variable {p : NodeId} {moved : Bool}

/-- A loop that has moved on starts one more run, unless it has nothing to run or the maximum is passed. -/
def startsRun (s : Turn) (moved : Bool) : Bool :=
  moved && !(s.tree.children s.loop.anchor).isEmpty && !s.loop.max.any (· < s.loop.count + 1)

theorem next_of_error {e : Error} (h : move s = .error e r) : next s = .error e r := Action.bind_of_error h

/-- A loop that has moved on starts one more run or ends; neither fails. -/
theorem next_of_ok (hwf : s.tree.WellFormed) (hp : s.tree.parent? s.loop.anchor = some p) (h : move s = .ok moved r) :
    ∃ s', next s = .ok (s.startsRun moved) s' ∧ if s.startsRun moved then
      s'.feed = r.feed ∧ s'.loop = { r.loop with count := s.loop.count + 1, anchor := s'.loop.anchor }
      else s'.feed = r.restored := by
  have hm := moved_move h
  have hloop : r.loop.anchor = s.loop.anchor ∧ r.loop.count = s.loop.count ∧ r.loop.max = s.loop.max := by
    rw [hm.loop]
    exact ⟨rfl, rfl, rfl⟩
  obtain ⟨hanchor, hcount, hmax⟩ := hloop
  cases moved with
  | false =>
    obtain ⟨s', hs', he⟩ := next_of_not_moved h
    exact ⟨s', hs', he.feed⟩
  | true =>
    rw [next_of_moved h]
    obtain ⟨more, s', hs'⟩ := exists_start (s := r) (by rw [hm.tree]; exact hwf)
      fun _ _ => ⟨_, by rw [hm.tree, hanchor]; exact hp⟩
    have hstarts : s.startsRun true = more := by
      unfold startsRun
      rcases start_ok hs' with ⟨rfl, -, hno⟩ | ⟨rfl, hunder, first, hfirst, -⟩
      · rw [hm.tree, hanchor, hcount, hmax, Tree.firstChild?, List.head?_eq_none_iff] at hno
        rcases hno with hno | hno
        · rw [hno]
          rfl
        · rw [hno, Bool.not_true, Bool.and_false]
      · rw [hm.tree, hanchor, Tree.firstChild?] at hfirst
        rw [hcount, hmax] at hunder
        obtain ⟨rest, hrest⟩ := List.head?_eq_some_iff.mp hfirst
        rw [hunder, hrest]
        rfl
    rw [hstarts]
    refine ⟨s', hs', ?_⟩
    rcases start_ok hs' with ⟨rfl, he, -⟩ | ⟨rfl, -, first, -, hr⟩
    · exact he.feed
    · obtain ⟨hfeed, hloop⟩ := rest_of_runs hr
      rw [hcount] at hloop
      exact ⟨hfeed, hloop⟩

theorem restored_alike (h : Same s s') : s.restored.Alike s'.restored := by
  obtain ⟨l, t, feed, scan⟩ := s
  obtain ⟨l', t', feed', scan'⟩ := s'
  obtain ⟨hl, hf⟩ := h
  dsimp only at hl hf
  cases hf with
  | records table =>
    have hs : l'.strategy = l.strategy := by rw [hl]
    unfold restored
    dsimp only
    rw [hs]
    cases l.strategy with
    | counted stacked => cases stacked <;> exact .records _
    | documents previous => exact .records _
    | records previous => exact .records _
  | documents h =>
    rw [restored_of_documents rfl, restored_of_documents rfl]
    exact .documents h

end Loop.Turn

/-! ## Loops of a walk -/

namespace Meaning

open Loop.Turn (Same agree_move next_of_error next_of_ok restored_alike moved_move)

variable {a : Agenda} {w w' : Walk} {f : Frame} {l l' : Loop} {body behind : List Element} {p : NodeId} {more : Bool}

/-- The records of a walk are those on an agenda. -/
structure SameRecords (w : Walk) (a : Agenda) : Prop where
  main : a.main = w.main
  secondary : w.secondary.Alike a.secondary

theorem Agenda.outer_withFeed (a : Agenda) (feed : Feed) : (a.withFeed feed).outer = a.outer := by
  cases feed <;> rfl

/-- The frame of the main document. -/
structure IsMain (f : Frame) : Prop where
  source : f.source = .main
  sees : f.seesSecondary = true
  owned : f.owned = none

section

variable (hr : SameRecords w a) (hf : IsMain f)

include hr hf

theorem SameRecords.feed (l : Loop) : (w.feedOf f l).Alike (a.feed { l with anchor := 0 }) := by
  unfold Walk.feedOf Agenda.feed
  have hsame : Loop.feedsOnDocuments { l with anchor := 0 } = l.feedsOnDocuments := rfl
  rw [hsame, hf.source, Walk.visible, if_pos hf.sees]
  split
  · exact .documents hr.secondary
  · rw [hr.main]
    exact .records _

theorem SameRecords.afterTurn {s : Loop.Turn} {feed : Feed} (h : s.feed.Alike feed) :
    SameRecords (w.afterTurn f s) (a.withFeed feed) := by
  unfold Walk.afterTurn
  rw [hf.sees, hf.source]
  generalize s.feed = feed₀ at h
  cases h with
  | records table => cases hw : w.frames <;> exact ⟨rfl, hr.secondary⟩
  | documents hc => cases hw : w.frames <;> exact ⟨hr.main, hc⟩

variable (hwf : w.space.tree.WellFormed) (hp : w.space.tree.parent? l.anchor = some p)

include hwf hp

/-- A loop that fails in a walk fails on the agenda. -/
theorem turn_of_error {e : Error} (h : Walk.turn f l w = .error e w') :
    a.turn { l with anchor := 0 } body behind = none := by
  have hsame : Same ⟨l, w.space.tree, w.feedOf f l, f.scan⟩ (a.bare { l with anchor := 0 }) := ⟨rfl, hr.feed hf l⟩
  have hagree := agree_move hsame
  unfold Agenda.turn
  cases hm : Loop.Turn.move ⟨l, w.space.tree, w.feedOf f l, f.scan⟩ with
  | ok moved r =>
    obtain ⟨s', hs', -⟩ := next_of_ok hwf hp hm
    unfold Walk.turn at h
    rw [hs'] at h
    cases h
  | error e r =>
    rw [hm] at hagree
    cases hm' : Loop.Turn.move (a.bare { l with anchor := 0 }) with
    | ok moved r => exact (hm' ▸ hagree).elim
    | error e r => rfl

/-- A loop that runs again or ends in a walk does so on the agenda. -/
theorem turn_of_ok (behind : List Element) (hbody : w.space.tree.children l.anchor = [] ↔ body = [])
    (h : Walk.turn f l w = .ok (more, l') w') : ∃ a',
    a.turn { l with anchor := 0 } body behind = some (more, a') ∧ SameRecords w' a' ∧
      if more then a'.key = l.bodyKey ∧ a'.ahead = body
        ∧ a'.outer = .loop { l' with anchor := 0 } body behind :: a.outer
      else a'.key = l.key ∧ a'.ahead = behind ∧ a'.outer = a.outer := by
  have hsame : Same ⟨l, w.space.tree, w.feedOf f l, f.scan⟩ (a.bare { l with anchor := 0 }) := ⟨rfl, hr.feed hf l⟩
  have hagree := agree_move hsame
  cases hm : Loop.Turn.move ⟨l, w.space.tree, w.feedOf f l, f.scan⟩ with
  | error e r =>
    unfold Walk.turn at h
    rw [next_of_error hm] at h
    cases h
  | ok moved r =>
    rw [hm] at hagree
    cases hm' : Loop.Turn.move (a.bare { l with anchor := 0 }) with
    | error e r' => exact (hm' ▸ hagree).elim
    | ok moved' r' =>
      rw [hm'] at hagree
      obtain ⟨rfl, hr'⟩ := hagree
      obtain ⟨s', hs', hresult⟩ := next_of_ok hwf hp hm
      unfold Walk.turn at h
      rw [hs'] at h
      cases h
      have hempty : (w.space.tree.children l.anchor).isEmpty = body.isEmpty :=
        Bool.eq_iff_iff.mpr (List.isEmpty_iff.trans (hbody.trans List.isEmpty_iff.symm))
      have hstarts : Loop.Turn.startsRun ⟨l, w.space.tree, w.feedOf f l, f.scan⟩ moved'
          = (moved' && !body.isEmpty && !l.max.any (· < l.count + 1)) := by
        unfold Loop.Turn.startsRun
        rw [hempty]
      unfold Agenda.turn
      rw [hm']
      dsimp only
      rw [← hstarts]
      cases hmore : Loop.Turn.startsRun ⟨l, w.space.tree, w.feedOf f l, f.scan⟩ moved' with
      | true =>
        rw [hmore] at hresult
        obtain ⟨hfeed, hloop⟩ := hresult
        have hafter : SameRecords (w.afterTurn f s') (a.withFeed r'.feed) :=
          hr.afterTurn hf (by rw [hfeed]; exact hr'.feed)
        have hanchor : r'.loop.anchor = 0 := by
          rw [(moved_move hm').loop]
          rfl
        refine ⟨_, rfl, ⟨hafter.main, hafter.secondary⟩, rfl, rfl, ?_⟩
        dsimp only
        rw [hloop, hr'.loop, hanchor]
      | false =>
        rw [hmore] at hresult
        have hafter : SameRecords (w.afterTurn f s') (a.withFeed r'.restored) :=
          hr.afterTurn hf (by rw [hresult]; exact restored_alike hr')
        exact ⟨_, rfl, ⟨hafter.main, hafter.secondary⟩, rfl, rfl, a.outer_withFeed _⟩

end

/-! ## Declared loops -/

section

variable {t t' : Tree} {n m : NodeId} (hattr : ∀ name, t'.attr? m name = t.attr? n name)

include hattr

theorem strategyOf_alike {c c' : Combined} (hc : c.Alike c') :
    (Loop.strategyOf t' m c').toOption = (Loop.strategyOf t n c).toOption := by
  unfold Loop.strategyOf
  rw [hattr, hc.cursor]
  split <;> rfl

/-- Where a loop stands does not matter for what it is declared to be. -/
theorem declared_alike {c c' : Combined} (key : String) (hc : c.Alike c')
    (h : (t.attr? n "max").isSome ∨ t.attr? n "xmax" = none) :
    (Loop.declared t' m key c').toOption
      = (Loop.declared t n key c).toOption.map fun l => { l with anchor := m } := by
  have hkey : t'.keyPath key m = t.keyPath key n := by
    unfold Tree.keyPath
    rw [hattr]
  unfold Loop.declared
  simp only [Loop.toOption_bind, strategyOf_alike hattr hc, Loop.flag?_alike hattr, Loop.max?_alike hattr h, hkey]
  cases (Loop.strategyOf t n c).toOption with
  | none => rfl
  | some strategy =>
    cases (Loop.flag? t n "fetch").toOption with
    | none => rfl
    | some fetch =>
      cases (Loop.flag? t n "unrolling").toOption with
      | none => rfl
      | some unrolling =>
        cases (Loop.max? t n).toOption with
        | none => rfl
        | some max =>
          simp only [Option.bind_some]
          split <;> rfl

end

end Meaning

end Stencil
