/-
  Counters go on where they stopped.

  A store is used for a while: values are drawn, it is saved, and it is closed and opened again (`Use`).  What comes of it
  is a list of events (`history`), unless a file cannot be written.  The invariant is `Ready`: the file of a store from
  which nothing has been drawn since it was written, holds the store's counters.  As what has been written is read back
  (`Files.read_of_write`, `Text.ofUtf8?_utf8Bytes`, `Counters.ofXml_toXml`), a store that is closed and opened has the
  counters it had (`Ready.reopen`), and the values that are drawn from a counter count up through all of it
  (`events_of_run`).
-/
import Mathlib
import Stencil.Proofs.Counter.Document
import Stencil.Proofs.Files

set_option autoImplicit false

namespace Stencil.CounterStore

/-! ## Histories -/

/-- What is done with a store. -/
inductive Use where
  /-- A value is drawn. -/
  | count (name : Option String)
  /-- The store is saved. -/
  | save
  /-- The store is closed, and its file is opened again. -/
  | reopen
  deriving DecidableEq

/-- What comes of it. -/
inductive Event where
  /-- A value has been drawn, or not. -/
  | drawn (name : Option String) (r : Except Error Int)
  /-- The store has been saved. -/
  | saved
  /-- The store held some counters when it was closed, and these ones have been found in its file. -/
  | reopened (held found : Counters)
  /-- The file has not been opened. -/
  | refused (e : Error)

/-- The use that an event comes of. -/
def Event.use : Event → Use
  | .drawn name _ => .count name
  | .saved => .save
  | .reopened _ _ | .refused _ => .reopen

/-- Whether the file of a store can be written. -/
def saves (s : CounterStore) (fs : Files) : Bool :=
  match s.save fs with
  | .ok _ _ => true
  | .error _ _ => false

/-- One use of a store; nothing if its file cannot be written. -/
def step (u : Use) (s : CounterStore) (fs : Files) : Option (Event × CounterStore × Files) :=
  match u with
  | .count name => some (.drawn name (s.draw name).1, (s.draw name).2, fs)
  | .save =>
    match s.save fs with
    | .ok s' fs' => some (.saved, s', fs')
    | .error _ _ => none
  | .reopen =>
    if s.dirty && !s.saves fs then none
    else
      match load s.path (s.close fs) with
      | .ok s' fs' => some (.reopened s.counters s'.counters, s', fs')
      | .error e fs' => some (.refused e, s, fs')

/-- The events when a store is used, as long as its file can be written. -/
def run : List Use → CounterStore → Files → Option (List Event)
  | [], _, _ => some []
  | u :: us, s, fs =>
    match step u s fs with
    | none => none
    | some (e, s', fs') => (run us s' fs').map (e :: ·)

/-- The events when the file of a path is opened, or created, and used. -/
def history (path : String) (uses : List Use) (fs : Files) : Option (List Event) :=
  match fs.exists? path, load path fs with
  | _, .ok s fs => run uses s fs
  | true, .error e _ => some [.refused e]
  | false, .error _ _ => none

/-- The values drawn from a counter, in order. -/
def valuesOf (name : Option String) (events : List Event) : List (Except Error Int) :=
  events.filterMap fun
    | .drawn n r => if n = name then some r else none
    | _ => none

/-- The file of a path holds some counters. -/
def Stored (fs : Files) (path : String) (c : Counters) : Prop :=
  fs.exists? path = true ∧ ∃ bytes text, fs.read path = .ok bytes ∧ Text.ofUtf8? bytes = some text
    ∧ Counters.ofXml text = .ok c

variable {path : String} {s s' : CounterStore} {fs fs' : Files} {c : Counters} {uses : List Use} {events : List Event}

/-! ## Saving and opening -/

/-- A file that holds counters is opened with them. -/
theorem load_stored (h : Stored fs path c) : load path fs = .ok ⟨path, c, false⟩ fs := by
  obtain ⟨hexists, bytes, text, hread, htext, hcounters⟩ := h
  show (if fs.exists? path = true then _ else _ : Action Files CounterStore) fs = _
  rw [if_pos hexists, hread]
  dsimp only
  rw [htext]
  dsimp only
  rw [hcounters]
  rfl

/-- A store that has been saved is as it was, and its file holds its counters. -/
theorem save_ok (h : s.save fs = .ok s' fs') (hkept : s.counters.Kept) :
    s' = { s with dirty := false } ∧ Stored fs' s.path s.counters := by
  unfold save at h
  cases hwrite : fs.write s.path (Text.utf8Bytes s.counters.toXml) with
  | error fault =>
    rw [hwrite] at h
    cases h
  | ok written =>
    rw [hwrite] at h
    cases h
    obtain ⟨⟨hexists, hread⟩, -⟩ := Files.read_of_write hwrite
    exact ⟨rfl, hexists, _, _, hread, Text.ofUtf8?_utf8Bytes _, Counters.ofXml_toXml hkept⟩

/-! ## The invariant -/

/-- The counters of a store can be kept, and its file holds them if it need not be written. -/
structure Ready (s : CounterStore) (fs : Files) : Prop where
  kept : s.counters.Kept
  stored : s.dirty = false → Stored fs s.path s.counters

theorem ready_of_stored (h : Stored fs path c) : Ready ⟨path, c, false⟩ fs := by
  have hstored := h
  obtain ⟨-, _, _, -, -, hcounters⟩ := h
  exact ⟨.of_ofXml hcounters, fun _ => hstored⟩

theorem Ready.draw (h : Ready s fs) (name : Option String) : Ready (s.draw name).2 fs :=
  ⟨h.kept.draw name, fun hd => Bool.noConfusion hd⟩

theorem Ready.save (h : Ready s fs) (hs : s.save fs = .ok s' fs') : Ready s' fs' ∧ s'.counters = s.counters := by
  obtain ⟨rfl, hstored⟩ := save_ok hs h.kept
  exact ⟨⟨h.kept, fun _ => hstored⟩, rfl⟩

/-- A store that is closed and opened has the counters it had. -/
theorem Ready.reopen (h : Ready s fs) (hsaves : s.dirty = true → s.saves fs = true) :
    load s.path (s.close fs) = .ok ⟨s.path, s.counters, false⟩ (s.close fs)
      ∧ Ready ⟨s.path, s.counters, false⟩ (s.close fs) := by
  have hstored : Stored (s.close fs) s.path s.counters := by
    unfold close
    cases hdirty : s.dirty with
    | false => exact h.stored hdirty
    | true =>
      have hs := hsaves hdirty
      unfold saves at hs
      rw [if_pos rfl]
      cases hsave : s.save fs with
      | error e fs' =>
        rw [hsave] at hs
        cases hs
      | ok s' fs' => exact (save_ok hsave h.kept).2
  exact ⟨load_stored hstored, ready_of_stored hstored⟩

/-! ## Drawing -/

/-- A counter that has not reached the last value gives its value and moves on; the others stay. -/
theorem draw_of_lt {name : Option String} (h : s.counters.value name < lastCount) :
    (s.draw name).1 = .ok (s.counters.value name)
      ∧ ∀ other, (s.draw name).2.counters.value other = s.counters.value other + if name = other then 1 else 0 := by
  have hdraw : s.counters.draw name
      = (.ok (s.counters.value name), s.counters.set name (s.counters.value name + 1)) := if_pos h
  have hstore : s.draw name
      = ((s.counters.draw name).1, { s with counters := (s.counters.draw name).2, dirty := true }) := rfl
  rw [hstore, hdraw]
  refine ⟨rfl, fun other => ?_⟩
  show (s.counters.set name (s.counters.value name + 1)).value other = _
  rw [Counters.value_set]
  split
  · rename_i heq
    rw [heq]
  · rw [Int.add_zero]

theorem valuesOf_cons_drawn (name other : Option String) (r : Except Error Int) (events : List Event) :
    valuesOf name (.drawn other r :: events) = (if other = name then [r] else []) ++ valuesOf name events := by
  unfold valuesOf
  rw [List.filterMap_cons]
  dsimp only
  split
  · rename_i hnone
    split at hnone
    · cases hnone
    · rename_i hne
      rw [if_neg hne, List.nil_append]
  · rename_i r' hsome
    split at hsome
    · rename_i heq
      cases hsome
      rw [if_pos heq, List.singleton_append]
    · cases hsome

/-- Consecutive values from the value of a counter on. -/
def upFrom (n : Int) (k : Nat) : List (Except Error Int) := (List.range k).map fun (i : Nat) => .ok (n + i)

theorem upFrom_succ (n : Int) (k : Nat) : upFrom n (k + 1) = .ok n :: upFrom (n + 1) k := by
  have hnext : ∀ i : Nat, (.ok (n + ((i + 1 : Nat) : Int)) : Except Error Int) = .ok (n + 1 + (i : Int)) := by
    intro i
    rw [Int.natCast_add, Int.add_assoc, Int.add_comm (i : Int)]
    rfl
  unfold upFrom
  rw [List.range_succ_eq_map, List.map_cons, List.map_map]
  exact List.cons_eq_cons.mpr ⟨by rw [Int.natCast_zero, Int.add_zero], List.map_congr_left fun i _ => hnext i⟩

/-! ## Runs -/

/-- What comes of a run from some counters: an event for each use, from each counter consecutive values beginning with
    its own, and in the file always what has been held. -/
structure Continues (c : Counters) (uses : List Use) (events : List Event) : Prop where
  answered : events.map Event.use = uses
  opened : ∀ e, .refused e ∉ events
  values : ∀ name, valuesOf name events = upFrom (c.value name) (uses.count (.count name))
  found : ∀ held found, .reopened held found ∈ events → found = held

theorem Continues.nil (c : Counters) : Continues c [] [] :=
  ⟨rfl, fun _ => List.not_mem_nil, fun _ => rfl, fun _ _ he => nomatch he⟩

/-- An event that is no draw, and no loss, comes first. -/
theorem Continues.cons {e : Event} (h : Continues c uses events) (huse : ∀ name, e.use ≠ .count name)
    (hopened : ∀ cause, e ≠ .refused cause) (hfound : ∀ held found, e = .reopened held found → found = held) :
    Continues c (e.use :: uses) (e :: events) where
  answered := by rw [List.map_cons, h.answered]
  opened cause he := (List.mem_cons.mp he).elim (fun heq => hopened cause heq.symm) (h.opened cause)
  values name := by
    have hskip : valuesOf name (e :: events) = valuesOf name events := by
      cases e with
      | drawn n r => exact absurd rfl (huse n)
      | saved | reopened | refused => rfl
    rw [hskip, h.values, List.count_cons_of_ne (huse name)]
  found held found he := (List.mem_cons.mp he).elim (fun heq => hfound held found heq.symm) (h.found held found)

/-- A draw comes first, of a counter that is one further then. -/
theorem Continues.cons_drawn {c' : Counters} {name : Option String} (h : Continues c' uses events)
    (hvalue : ∀ other, c'.value other = c.value other + if name = other then 1 else 0) :
    Continues c (.count name :: uses) (.drawn name (.ok (c.value name)) :: events) where
  answered := by
    rw [List.map_cons, h.answered]
    rfl
  opened cause he := (List.mem_cons.mp he).elim (fun heq => nomatch heq) (h.opened cause)
  values other := by
    rw [valuesOf_cons_drawn, h.values, hvalue]
    by_cases heq : name = other
    · subst heq
      rw [if_pos rfl, if_pos rfl, List.count_cons_self, upFrom_succ]
      rfl
    · have hne : Use.count name ≠ Use.count other := fun hu => heq (Use.count.inj hu)
      rw [if_neg heq, if_neg heq, Int.add_zero, List.nil_append]
      exact congrArg _ (List.count_cons_of_ne hne).symm
  found held found he := (List.mem_cons.mp he).elim (fun heq => nomatch heq) (h.found held found)

/-- What one use does, if no counter is at its last value: it gives a counter's value and moves the counter on, or it
    changes no counter and loses none. -/
theorem Ready.step {u : Use} {e : Event} (h : Ready s fs) (hstep : s.step u fs = some (e, s', fs'))
    (hlast : ∀ name, u = .count name → s.counters.value name < lastCount) :
    Ready s' fs' ∧ ((∃ name, u = .count name ∧ e = .drawn name (.ok (s.counters.value name))
        ∧ ∀ other, s'.counters.value other = s.counters.value other + if name = other then 1 else 0)
      ∨ s'.counters = s.counters ∧ e.use = u ∧ (e = .saved ∨ e = .reopened s.counters s.counters)) := by
  cases u with
  | count name =>
    obtain ⟨hdrawn, hvalues⟩ := draw_of_lt (hlast name rfl)
    cases hstep
    exact ⟨h.draw name, .inl ⟨name, rfl, congrArg _ hdrawn, hvalues⟩⟩
  | save =>
    unfold CounterStore.step at hstep
    dsimp only at hstep
    cases hsave : s.save fs with
    | error e fs' =>
      rw [hsave] at hstep
      cases hstep
    | ok s' fs' =>
      rw [hsave] at hstep
      cases hstep
      obtain ⟨hready, hcounters⟩ := h.save hsave
      exact ⟨hready, .inr ⟨hcounters, rfl, .inl rfl⟩⟩
  | reopen =>
    unfold CounterStore.step at hstep
    dsimp only at hstep
    split at hstep
    · cases hstep
    · rename_i hwritten
      have hsaves : s.dirty = true → s.saves fs = true := by
        intro hd
        rw [hd, Bool.true_and, Bool.not_eq_true', Bool.not_eq_false] at hwritten
        exact hwritten
      obtain ⟨hload, hready⟩ := h.reopen hsaves
      rw [hload] at hstep
      cases hstep
      exact ⟨hready, .inr ⟨rfl, rfl, .inr rfl⟩⟩

/-- Whatever is done with a store continues its counters. -/
theorem continues_of_run (h : Ready s fs) (hrun : run uses s fs = some events)
    (hlast : ∀ name, s.counters.value name + (uses.count (.count name) : Int) ≤ lastCount) :
    Continues s.counters uses events := by
  induction uses generalizing s fs events with
  | nil =>
    cases hrun
    exact .nil _
  | cons u us ih =>
    have hroom : ∀ name, u = .count name → s.counters.value name < lastCount := by
      rintro name rfl
      have hhere := hlast name
      rw [List.count_cons_self] at hhere
      omega
    unfold run at hrun
    cases hstep : s.step u fs with
    | none =>
      rw [hstep] at hrun
      cases hrun
    | some r =>
      obtain ⟨e, s', fs'⟩ := r
      rw [hstep] at hrun
      obtain ⟨more, hmore, rfl⟩ := Option.map_eq_some_iff.mp hrun
      obtain ⟨hready, ⟨name, rfl, rfl, hvalues⟩ | ⟨hcounters, rfl, he⟩⟩ := h.step hstep hroom
      · refine .cons_drawn (ih hready hmore fun other => ?_) hvalues
        have hhere := hlast other
        rw [hvalues]
        by_cases heq : name = other
        · subst heq
          rw [List.count_cons_self] at hhere
          rw [if_pos rfl]
          omega
        · have hne : Use.count name ≠ Use.count other := fun hu => heq (Use.count.inj hu)
          rw [List.count_cons_of_ne hne] at hhere
          rw [if_neg heq, Int.add_zero]
          exact hhere
      · have hnot : ∀ name, e.use ≠ .count name := by
          obtain rfl | rfl := he <;> exact fun name hu => nomatch hu
        have hlater : Continues s'.counters us more := ih hready hmore fun name => by
          have hhere := hlast name
          rwa [List.count_cons_of_ne (hnot name), ← hcounters] at hhere
        rw [hcounters] at hlater
        refine hlater.cons hnot ?_ ?_
        · obtain rfl | rfl := he <;> exact fun cause hc => nomatch hc
        · rintro held found rfl
          obtain he | he := he
          · cases he
          · cases he
            rfl

/-! ## Files that can be written -/

/-- The file of a path can be written, now and later. -/
def Writable (fs : Files) (path : String) : Prop := ∀ bytes, ∃ fs', fs.write path bytes = .ok fs'

theorem Writable.save (h : Writable fs s.path) :
    ∃ fs', s.save fs = .ok { s with dirty := false } fs' ∧ Writable fs' s.path := by
  obtain ⟨fs', hwrite⟩ := h (Text.utf8Bytes s.counters.toXml)
  refine ⟨fs', ?_, (Files.read_of_write hwrite).2⟩
  unfold CounterStore.save
  rw [hwrite]

theorem Writable.close (h : Writable fs s.path) : s.saves fs = true ∧ Writable (s.close fs) s.path := by
  obtain ⟨fs', hsave, hlater⟩ := h.save
  unfold saves CounterStore.close
  rw [hsave]
  refine ⟨rfl, ?_⟩
  split
  · exact hlater
  · exact h

theorem Ready.exists_step (h : Ready s fs) (hw : Writable fs s.path) (u : Use) :
    ∃ e s' fs', s.step u fs = some (e, s', fs') ∧ Ready s' fs' ∧ Writable fs' s'.path := by
  cases u with
  | count name => exact ⟨_, _, _, rfl, h.draw name, hw⟩
  | save =>
    obtain ⟨fs', hsave, hlater⟩ := hw.save
    refine ⟨.saved, _, fs', ?_, (h.save hsave).1, hlater⟩
    unfold CounterStore.step
    dsimp only
    rw [hsave]
  | reopen =>
    obtain ⟨hsaves, hlater⟩ := hw.close
    obtain ⟨hload, hready⟩ := h.reopen fun _ => hsaves
    refine ⟨.reopened s.counters s.counters, _, s.close fs, ?_, hready, hlater⟩
    unfold CounterStore.step
    dsimp only
    rw [hsaves, Bool.not_true, Bool.and_false, if_neg Bool.false_ne_true, hload]

/-- Whatever is to be done with a store can be done, if its file can be written. -/
theorem exists_run (h : Ready s fs) (hw : Writable fs s.path) (uses : List Use) :
    ∃ events, run uses s fs = some events := by
  induction uses generalizing s fs with
  | nil => exact ⟨[], rfl⟩
  | cons u us ih =>
    obtain ⟨e, s', fs', hstep, hready, hlater⟩ := h.exists_step hw u
    obtain ⟨events, hrun⟩ := ih hready hlater
    refine ⟨e :: events, ?_⟩
    unfold run
    rw [hstep]
    dsimp only
    rw [hrun]
    rfl

/-! ## From a file on -/

/-- Opening a path gives a store with the counters of its file, or creates the file. -/
theorem load_of_file (hfile : fs.exists? path = false ∧ c = .zero ∨ Stored fs path c) :
    load path fs = .ok ⟨path, c, false⟩ fs ∧ Ready ⟨path, c, false⟩ fs
      ∨ (fs.exists? path = false ∧ load path fs = (CounterStore.mk path c true).save fs) ∧ Ready ⟨path, c, true⟩ fs := by
  obtain ⟨hnone, rfl⟩ | hstored := hfile
  · refine .inr ⟨⟨hnone, ?_⟩, Counters.kept_zero, fun hd => Bool.noConfusion hd⟩
    show (if fs.exists? path = true then _ else _ : Action Files CounterStore) fs = _
    rw [if_neg (Bool.eq_false_iff.mp hnone)]
  · exact .inl ⟨load_stored hstored, ready_of_stored hstored⟩

/-- A history takes place if its file can be written. -/
theorem exists_history (hfile : fs.exists? path = false ∧ c = .zero ∨ Stored fs path c) (hw : Writable fs path)
    (uses : List Use) : ∃ events, history path uses fs = some events := by
  unfold history
  obtain ⟨hload, hready⟩ | ⟨⟨-, hload⟩, hready⟩ := load_of_file hfile
  · rw [hload]
    exact exists_run hready hw uses
  · obtain ⟨fs', hsave, hlater⟩ := Writable.save (s := ⟨path, c, true⟩) hw
    rw [hload, hsave]
    exact exists_run (hready.save hsave).1 hlater uses

/-- The counters of a file go on where they stopped, however often the file is saved, closed and opened again; if there is
    no file they begin at zero. -/
theorem continues_of_history (hfile : fs.exists? path = false ∧ c = .zero ∨ Stored fs path c)
    (hrun : history path uses fs = some events)
    (hlast : ∀ name, c.value name + (uses.count (.count name) : Int) ≤ lastCount) : Continues c uses events := by
  unfold history at hrun
  obtain ⟨hload, hready⟩ | ⟨⟨hnone, hload⟩, hready⟩ := load_of_file hfile
  · rw [hload] at hrun
    exact continues_of_run hready hrun hlast
  · rw [hload, hnone] at hrun
    cases hsave : (CounterStore.mk path c true).save fs with
    | error e fs' =>
      rw [hsave] at hrun
      cases hrun
    | ok s fs' =>
      rw [hsave] at hrun
      obtain ⟨hlater, hcounters⟩ := hready.save hsave
      have hzero : s.counters = c := hcounters
      rw [← hzero] at hlast ⊢
      exact continues_of_run hlater hrun hlast

/-- Two counters, one of them with a name that has to be escaped, over two reopenings of a file that is created. -/
theorem continues_of_history_reopened :
    let uses : List Use := [.count (some "<a>"), .count none, .reopen, .count (some "<a>"), .save, .reopen, .count (some "<a>")]
    Files.empty.exists? "c.xml" = false ∧ (∀ name, Counters.zero.value name + (uses.count (.count name) : Int) ≤ lastCount)
      ∧ ∃ events, history "c.xml" uses Files.empty = some events ∧ Continues .zero uses events
        ∧ valuesOf (some "<a>") events = [.ok 0, .ok 1, .ok 2] := by
  intro uses
  have hlocate : Files.empty.locate "c.xml" = .ok ⟨false, 0, ["c.xml"]⟩ := by cbv
  have hentry : Files.empty.entry ⟨false, 0, ["c.xml"]⟩ = .absent := rfl
  have hnone : Files.empty.exists? "c.xml" = false := by
    unfold Files.exists?
    rw [hlocate]
    dsimp only
    rw [hentry]
  have hwritable : Writable Files.empty "c.xml" := fun bytes =>
    ⟨_, Files.write_eq_ok_iff.mpr ⟨by cbv, _, hlocate, by rw [hentry]; decide, rfl⟩⟩
  have hlast : ∀ name, Counters.zero.value name + (uses.count (.count name) : Int) ≤ lastCount := by
    intro name
    have hvalue : Counters.zero.value name = 0 := by cases name <;> rfl
    have hcount : uses.count (.count name) ≤ 7 := List.count_le_length
    unfold lastCount
    omega
  obtain ⟨events, hrun⟩ := exists_history (.inl ⟨hnone, rfl⟩) hwritable uses
  have hall := continues_of_history (.inl ⟨hnone, rfl⟩) hrun hlast
  exact ⟨hnone, hlast, events, hrun, hall, hall.values (some "<a>")⟩

end Stencil.CounterStore
