/-
  Where the fields stand that wait.

  The levels of the sink belong to the documents that are walked, and to the loops in them from their second
  run on (`holders`).  A field that waits stands on the trunk of the document of its level.  If it stands in a copy
  of a loop, then that is a loop that runs, and one whose level is not below that of the field (`Awaits`).  So
  nothing waits any more in the copies of a loop that is over, and these may be dropped.

  A level that is opened is empty, and so is one that has been completed: what the loop it belongs to does next
  need not be known before.
-/
import Stencil.Proofs.Walk.Copied

set_option autoImplicit false

namespace Stencil.Walk

open Stencil.Tree (Under Inner Refreshed)
open Loop (Entered copies)
open Loop.Turn (Advanced)

variable {t t' : Tree} {docs rs roots : List NodeId} {root p n q a a' m c x : NodeId} {r : Run} {f g : Frame}
  {frames more : List Frame} {l : Loop} {loops outer : List Loop} {scan : List Position} {key : String}
  {w w' : Walk} {o : Options} {u : Unit} {k : NodeId × List Loop} {hs : List (NodeId × List Loop)}
  {ls : List (List Waiting)} {sink : Option Sink}

/-! ## Levels and what they belong to -/

/-- For each level of a document, the innermost first, the loops that run at least as long as the level is
    there. -/
def levelLoops : List Loop → List (List Loop)
  | [] => [[]]
  | l :: loops => if 2 ≤ l.count then (l :: loops) :: levelLoops loops else levelLoops loops

theorem levelLoops_cons_of_le (h : 2 ≤ l.count) :
    levelLoops (l :: loops) = (l :: loops) :: levelLoops loops := if_pos h

theorem levelLoops_cons_of_lt (h : l.count < 2) : levelLoops (l :: loops) = levelLoops loops :=
  if_neg (Nat.not_le_of_lt h)

theorem length_levelLoops (loops : List Loop) : (levelLoops loops).length = repeating loops + 1 := by
  induction loops with
  | nil => rfl
  | cons l loops ih =>
    rw [repeating_cons]
    by_cases h : 2 ≤ l.count
    · rw [levelLoops_cons_of_le h, if_pos h, List.length_cons, ih]
    · rw [levelLoops_cons_of_lt (Nat.lt_of_not_le h), if_neg h, ih]

theorem suffix_of_mem_levelLoops (h : outer ∈ levelLoops loops) : outer <:+ loops := by
  induction loops with
  | nil =>
    obtain rfl := List.mem_singleton.mp h
    exact List.suffix_refl _
  | cons l loops ih =>
    by_cases hc : 2 ≤ l.count
    · rw [levelLoops_cons_of_le hc] at h
      rcases List.mem_cons.mp h with rfl | h
      · exact List.suffix_refl _
      · exact (ih h).trans (List.suffix_cons l loops)
    · rw [levelLoops_cons_of_lt (Nat.lt_of_not_le hc)] at h
      exact (ih h).trans (List.suffix_cons l loops)

theorem mem_of_mem_levelLoops (h : outer ∈ levelLoops loops) (hl : l ∈ outer) : l ∈ loops :=
  (suffix_of_mem_levelLoops h).subset hl

/-- The innermost level belongs to the innermost loop that is in its second run or a later one. -/
theorem exists_innermost (loops : List Loop) :
    ∃ top rest, levelLoops loops = top :: rest ∧ ∀ l ∈ loops, 2 ≤ l.count → l ∈ top := by
  induction loops with
  | nil => exact ⟨[], [], rfl, fun _ hl => nomatch hl⟩
  | cons l loops ih =>
    by_cases hc : 2 ≤ l.count
    · exact ⟨_, _, levelLoops_cons_of_le hc, fun _ hl _ => hl⟩
    · obtain ⟨top, rest, htop, hmem⟩ := ih
      refine ⟨top, rest, (levelLoops_cons_of_lt (Nat.lt_of_not_le hc)).trans htop, fun l' hl hc' => ?_⟩
      rcases List.mem_cons.mp hl with rfl | hl
      · exact absurd hc' hc
      · exact hmem l' hl hc'

/-- What the levels of the sink belong to, the innermost first: a document, by its root, and the loops that run
    in it as long as the level is there. -/
def holders (docs : List NodeId) (frames : List Frame) : List (NodeId × List Loop) :=
  frames.flatMap fun f => (levelLoops f.loops).map fun loops => ((rootOf docs f).getD 0, loops)

theorem holders_cons (docs : List NodeId) (f : Frame) (frames : List Frame) :
    holders docs (f :: frames)
      = (levelLoops f.loops).map (fun loops => ((rootOf docs f).getD 0, loops)) ++ holders docs frames := rfl

/-- The innermost level. -/
theorem holders_cons_of_top {top : List Loop} {rest : List (List Loop)}
    (htop : levelLoops f.loops = top :: rest) (hf : rootOf docs f = some root) :
    holders docs (f :: frames)
      = (root, top) :: (rest.map (fun loops => (root, loops)) ++ holders docs frames) := by
  rw [holders_cons, htop, hf]
  rfl

theorem length_holders (docs : List NodeId) (frames : List Frame) :
    (holders docs frames).length = levelsOf frames := by
  induction frames with
  | nil => rfl
  | cons f frames ih =>
    rw [holders_cons, levelsOf_cons, List.length_append, List.length_map, length_levelLoops, ih]
    omega

theorem holders_cons_congr (hs : SameFrame f g) (hl : levelLoops g.loops = levelLoops f.loops) :
    holders docs (g :: more) = holders docs (f :: more) := by
  rw [holders_cons, holders_cons, hs.rootOf, hl]

/-! ## Fields that wait -/

/-- A lazy field waits in the document of `root`, on a level that is there as long as the loops `loops` run. -/
structure Awaits (t : Tree) (root : NodeId) (loops : List Loop) (x : NodeId) : Prop where
  name : t.name x = "item"
  eval : t.attr? x "eval" = some "lazy"
  parent : ∃ q, t.parent? x = some q ∧ Inner t root q
  copied : ∀ c, Under t c x → Copied t c → ∃ l ∈ loops, l.anchor = c

/-- What waits, waits as before where nothing above it becomes a copy. -/
theorem Awaits.of_stays (h : Awaits t root loops x) (hs : ∀ m, Under t m x → Stays t t' m) :
    Awaits t' root loops x := by
  have hunder : ∀ {m}, Under t' m x ↔ Under t m x := Tree.under_congr fun m hm => (hs m hm).parent?
  refine ⟨(hs x .self).name.trans h.name, ?_, ?_,
    fun c hc hcop => h.copied c (hunder.mp hc) ((hs c (hunder.mp hc)).copied hcop)⟩
  · unfold Tree.attr?
    rw [(hs x .self).attrs]
    exact h.eval
  obtain ⟨q, hq, hi⟩ := h.parent
  refine ⟨q, (hs x .self).parent?.trans hq, ?_⟩
  have hqx := Tree.under_of_parent hq
  clear hq
  induction hi with
  | root => exact .root
  | @step p m _ hp hn ih =>
    have hm := hs m hqx
    refine .step (ih ((Tree.under_of_parent hp).trans hqx)) (hm.parent?.trans hp) ?_
    rw [hm.name]
    exact hn

theorem Awaits.live (hwf : t.WellFormed) (h : Awaits t root loops x) : t.Live x := by
  obtain ⟨q, hq, -⟩ := h.parent
  exact (hwf.live_of_parent hq).1

/-- What waits, waits as before where no node becomes a copy. -/
theorem Awaits.of_live (hwf : t.WellFormed) (hs : ∀ m, t.Live m → Stays t t' m) (h : Awaits t root loops x) :
    Awaits t' root loops x :=
  h.of_stays fun m hm => hs m (hwf.live_of_under' (h.live hwf) hm)

/-- The fields that wait on the levels of a walk. -/
def Waits (t : Tree) (hs : List (NodeId × List Loop)) (ls : List (List Waiting)) : Prop :=
  List.Forall₂ (fun k level => ∀ x ∈ level, Awaits t k.1 k.2 x.item) hs ls

theorem Waits.mono (h : Waits t hs ls) (hm : ∀ k ∈ hs, ∀ x, Awaits t k.1 k.2 x → Awaits t' k.1 k.2 x) :
    Waits t' hs ls := by
  induction h with
  | nil => exact .nil
  | cons hx _ ih =>
    exact .cons (fun x hmem => hm _ List.mem_cons_self _ (hx x hmem))
      (ih fun k hk => hm k (List.mem_cons_of_mem _ hk))

/-- The same for an open sink, which may have had levels of its own before. -/
def WaitsOn (t : Tree) (hs : List (NodeId × List Loop)) (sink : Option Sink) : Prop :=
  ∀ s, sink = some s → ∃ ls below, s.levels = ls ++ below ∧ Waits t hs ls

namespace WaitsOn

theorem closed : WaitsOn t hs none := fun _ h => nomatch h

theorem mono (h : WaitsOn t hs sink)
    (hm : ∀ k ∈ hs, ∀ x, Awaits t k.1 k.2 x → Awaits t' k.1 k.2 x) : WaitsOn t' hs sink := by
  intro s hsink
  obtain ⟨ls, below, hl, hw⟩ := h s hsink
  exact ⟨ls, below, hl, hw.mono hm⟩

/-- A level is opened, whatever for. -/
theorem push (h : WaitsOn t hs sink) (k : NodeId × List Loop) : WaitsOn t (k :: hs) (sink.map Sink.push) := by
  intro s hsink
  obtain ⟨s', hs', rfl⟩ := Option.map_eq_some_iff.mp hsink
  obtain ⟨ls, below, hl, hw⟩ := h s' hs'
  exact ⟨[] :: ls, below, congrArg ([] :: ·) hl, .cons (fun _ hx => nomatch hx) hw⟩

theorem pop (h : WaitsOn t (k :: hs) sink) : WaitsOn t hs (sink.map Sink.pop) := by
  intro s hsink
  obtain ⟨s', hs', rfl⟩ := Option.map_eq_some_iff.mp hsink
  obtain ⟨ls, below, hl, hw⟩ := h s' hs'
  cases hw with
  | @cons _ level _ ls _ hw => exact ⟨ls, below, congrArg List.tail hl, hw⟩

theorem of_levels {s s' : Sink} (h : WaitsOn t hs (some s)) (hl : s'.levels = s.levels) :
    WaitsOn t hs (some s') := by
  rintro _ ⟨⟩
  rw [hl]
  exact h s rfl

/-- One more field waits on the innermost level. -/
theorem queue {s s' : Sink} {y : Waiting} {level : List Waiting} {levels : List (List Waiting)}
    (h : WaitsOn t (k :: hs) (some s)) (hy : Awaits t k.1 k.2 y.item) (hl : s.levels = level :: levels)
    (hl' : s'.levels = (y :: level) :: levels) : WaitsOn t (k :: hs) (some s') := by
  rintro _ ⟨⟩
  obtain ⟨ls, below, hls, hw⟩ := h s rfl
  cases hw with
  | @cons _ top _ ls htop hw =>
    rw [hl, List.cons_append] at hls
    obtain ⟨rfl, rfl⟩ := List.cons.inj hls
    refine ⟨(y :: level) :: ls, below, hl', .cons (fun x hx => ?_) hw⟩
    rcases List.mem_cons.mp hx with rfl | hx
    · exact hy
    · exact htop x hx

/-- The levels of a sink that has just been opened are empty. -/
theorem of_replicate {s : Sink} (hl : s.levels = List.replicate hs.length []) : WaitsOn t hs (some s) := by
  intro s' hs'
  cases hs'
  refine ⟨_, [], by rw [hl, List.append_nil], ?_⟩
  clear hl
  induction hs with
  | nil => exact .nil
  | cons k hs ih => exact .cons (fun _ hx => nomatch hx) ih

end WaitsOn

/-- The innermost level is completed: nothing waits on it any more, so that it may belong to something else. -/
theorem waitsOn_completeLevel (hwf : w.space.tree.WellFormed)
    (hm : Refreshed w.space.tree w'.space.tree → ∀ k ∈ hs, ∀ x, Awaits w.space.tree k.1 k.2 x →
      Awaits w'.space.tree k.1 k.2 x)
    (h : WaitsOn w.space.tree (k :: hs) w.sink) (hc : completeLevel o w = .ok u w')
    (k' : NodeId × List Loop) : WaitsOn w'.space.tree (k' :: hs) w'.sink := by
  intro s' hs'
  rcases onSink_ok hc with ⟨hs, rfl⟩ | ⟨s, j, hsink, hj, rfl⟩
  · rw [hs] at hs'
    cases hs'
  · cases hs'
    have hd := Job.completed_writeChunk hwf hj
    obtain ⟨ls, below, hl, hw⟩ := h s hsink
    cases hw with
    | @cons _ level _ ls _ hw =>
      refine ⟨[] :: ls, below, ?_, .cons (fun _ hx => nomatch hx) (Waits.mono hw (hm hd.tree))⟩
      have hlevels := hd.levels
      simp only [hl, List.cons_append] at hlevels
      exact hlevels

/-! ## What waits, waits on -/

/-- The root of each document that is walked. -/
theorem Stack.exists_root (h : Stack t docs frames roots) (hf : f ∈ frames) :
    ∃ r ∈ roots, rootOf docs f = some r ∧ IsRoot t r ∧ Placed t r f := by
  induction h with
  | nil => cases hf
  | main hroot hp hr =>
    rw [List.mem_singleton.mp hf]
    exact ⟨_, List.mem_singleton_self _, hr, hroot, hp⟩
  | «import» _ _ hroot hp hr _ _ _ ih =>
    rcases List.mem_cons.mp hf with rfl | hf
    · exact ⟨_, List.mem_cons_self, hr, hroot, hp⟩
    · obtain ⟨r, hm, h⟩ := ih hf
      exact ⟨r, List.mem_cons_of_mem _ hm, h⟩

/-- The documents that are walked are those of the levels. -/
theorem Stack.mem_holders (h : Stack t docs frames roots) (hk : k ∈ holders docs frames) :
    k.1 ∈ roots ∧ IsRoot t k.1 := by
  obtain ⟨f, hf, hk⟩ := List.mem_flatMap.mp hk
  obtain ⟨loops, -, rfl⟩ := List.mem_map.mp hk
  obtain ⟨r, hm, hr, hroot, -⟩ := h.exists_root hf
  rw [hr]
  exact ⟨hm, hroot⟩

/-- A change of which the walk of a document notices nothing. -/
theorem Awaits.of_undisturbed (hwf : t.WellFormed) (hroot : IsRoot t root) (hu : Undisturbed t t' root)
    (h : Awaits t root loops x) : Awaits t' root loops x := by
  obtain ⟨q, hq, hi⟩ := h.parent
  refine h.of_stays fun m hm => ?_
  rcases Tree.under_iff.mp hm with rfl | ⟨q', hq', hm⟩
  · exact hu.stays hwf hroot hi (.inl hq)
  · rw [hq] at hq'
    cases hq'
    exact hu.stays hwf hroot hi (.inr hm)

theorem Awaits.of_around (hwf : t.WellFormed) (ha : Around rs t t') (hr : root ∈ rs) (hroot : IsRoot t root)
    (h : Awaits t root loops x) : Awaits t' root loops x :=
  h.of_undisturbed hwf hroot (undisturbed_of_around hwf ha hr hroot)

/-- A change in the innermost document. -/
theorem Stack.waitsOn_of_step (hwf : t.WellFormed) (hs : Stack t docs more rs) (ha : Around rs t t')
    (hf : rootOf docs f = some root)
    (hm : ∀ loops ∈ levelLoops f.loops, ∀ x, Awaits t root loops x → Awaits t' root loops x)
    (h : WaitsOn t (holders docs (f :: more)) sink) : WaitsOn t' (holders docs (f :: more)) sink := by
  refine h.mono fun k hk x hx => ?_
  rw [holders_cons, hf] at hk
  rcases List.mem_append.mp hk with hk | hk
  · obtain ⟨loops, hl, rfl⟩ := List.mem_map.mp hk
    exact hm loops hl x hx
  · obtain ⟨hr, hroot⟩ := hs.mem_holders hk
    exact hx.of_around hwf ha hr hroot

/-- No field that waits stands in a copy of a loop that is about to be entered. -/
theorem Awaits.not_under_copy (hwf : t.WellFormed) (hp : t.parent? n = some p) (hname : t.name n = "repeat")
    (h : Awaits t root loops x) (ha : ∀ l ∈ loops, Under t l.anchor p) (hc : c ∈ copies t n) :
    ¬ Under t c x := by
  intro hu
  obtain ⟨l, hl, hlc⟩ := h.copied c hu (copied_of_mem_copies hwf hname hc)
  refine Walk.not_under_copy hwf hp hc (m := c) ?_ .self
  rw [← hlc]
  exact ha l hl

theorem Awaits.of_entered (hwf : t.WellFormed) (hp : t.parent? n = some p) (hname : t.name n = "repeat")
    (he : Entered t n p t') (ha : ∀ l ∈ loops, Under t l.anchor p) (h : Awaits t root loops x) :
    Awaits t' root loops x := by
  refine h.of_stays fun m hm => stays_of_entered hwf hp hname he ((he.live m).mpr ⟨?_, fun c hc hcm => ?_⟩)
  · exact hwf.live_of_under' (h.live hwf) hm
  · exact h.not_under_copy hwf hp hname ha hc (hcm.trans hm)

/-- The anchors of the loops stand above where the walk stands. -/
theorem Standing.under_anchor (h : Standing t root p key loops scan) (hl : l ∈ loops) : Under t l.anchor p := by
  induction h with
  | top => cases hl
  | group _ hp _ _ _ ih => exact (ih hl).trans (Tree.under_of_parent hp)
  | loop _ hp _ _ ha _ _ _ _ ih =>
    rcases List.mem_cons.mp hl with rfl | hl
    · rw [ha]
      exact .self
    · exact (ih hl).trans (Tree.under_of_parent hp)

/-- A loop above where the walk stands runs. -/
theorem Standing.exists_loop (hr : t.parent? root = none) (h : Standing t root p key loops scan)
    (hu : Under t c p) (hc : t.name c = "repeat") (hne : c ≠ root) : ∃ l ∈ loops, l.anchor = c := by
  induction h with
  | top => exact absurd (hu.eq_of_root hr).symm hne
  | @group p q _ _ _ _ _ _ hp hn _ _ ih =>
    by_cases hcp : c = p
    · rw [hcp, hn] at hc
      exact absurd hc (by decide)
    · exact ih (hu.of_parent hp fun he => hcp he.symm)
  | @loop p q _ _ l _ _ _ hp _ _ ha _ _ _ _ ih =>
    by_cases hcp : c = p
    · exact ⟨l, List.mem_cons_self, ha.trans hcp.symm⟩
    · obtain ⟨l', hl', hc'⟩ := ih (hu.of_parent hp fun he => hcp he.symm)
      exact ⟨l', List.mem_cons_of_mem _ hl', hc'⟩

/-- A lazy field that is visited may wait on the innermost level. -/
theorem Standing.awaits (hwf : t.WellFormed) (hroot : IsRoot t root) (htidy : Tidy t f)
    (h : Standing t root p key f.loops f.scan) (hn : t.parent? n = some p) (hname : t.name n = "item")
    (heval : t.attr? n "eval" = some "lazy") :
    ∃ top rest, levelLoops f.loops = top :: rest ∧ Awaits t root top n := by
  obtain ⟨top, rest, htop, hmem⟩ := exists_innermost f.loops
  refine ⟨top, rest, htop, hname, heval, ⟨p, hn, h.inner⟩, fun c hc hcop => ?_⟩
  have hcn : n ≠ c := by
    rintro rfl
    have := hcop.name
    rw [hname] at this
    exact absurd this (by decide)
  have hcr : c ≠ root := by
    rintro rfl
    obtain ⟨q, hq⟩ := hcop.exists_parent hwf
    rw [hroot.parent?] at hq
    cases hq
  obtain ⟨l, hl, rfl⟩ := h.exists_loop hroot.parent? (hc.of_parent hn hcn) hcop.name hcr
  -- a loop in its first run stands at no copy
  exact ⟨l, hmem l hl (Nat.le_of_not_lt fun hlt => htidy.first l hl hlt hcop), rfl⟩

end Stencil.Walk
