/-
  What entering a loop and starting its runs do to the documents.

  Entering a loop drops the copies that an earlier visit has left behind it (`Entered`).  A further run
  leaves the tree alone or puts one more copy behind the node of the run before (`Continues`); when the
  loop ends, the tree is as it was and the walk goes on behind the node of the last run (`Ends`).

  All this happens below the parent of the loop: its other children, and what stands above it, stay.
-/
import Stencil.Loop
import Stencil.Proofs.Action
import Stencil.Proofs.Tree.Cloning

set_option autoImplicit false

namespace Stencil.Loop

open Stencil.Tree (Under Closed Keeps Dropped Grafted PutIn HoldsAll)

variable {t t' : Tree} {anchor p n : NodeId} {key : String} {combined : Combined} {l : Loop}
  {P : NodeId → Prop}

/-! ## Entering -/

/-- The loop `l` is the one that a node declares. -/
structure Declared (t : Tree) (anchor : NodeId) (key : String) (combined : Combined) (l : Loop) : Prop where
  strategy : strategyOf t anchor combined = .ok l.strategy
  max : max? t anchor = .ok l.max
  fetch : ∃ flag, flag? t anchor "fetch" = .ok flag ∧ l.fetch = flag.getD !l.strategy.isCounted
  unrolling : ∃ flag, flag? t anchor "unrolling" = .ok flag ∧ l.unrolling = flag.getD false
  bounded : (l.strategy.isCounted && !l.fetch && l.max.isNone) = false
  count : l.count = 0
  bodyKey : l.bodyKey = t.keyPath key anchor
  key : l.key = key
  anchor : l.anchor = anchor

theorem declared_eq_ok (h : declared t anchor key combined = .ok l) : Declared t anchor key combined l := by
  unfold declared at h
  cases hs : strategyOf t anchor combined with
  | error e => simp only [hs, bind, Except.bind] at h; cases h
  | ok strategy =>
    cases hf : flag? t anchor "fetch" with
    | error e => simp only [hs, hf, bind, Except.bind] at h; cases h
    | ok fetch =>
      cases hu : flag? t anchor "unrolling" with
      | error e => simp only [hs, hf, hu, bind, Except.bind] at h; cases h
      | ok unrolling =>
        cases hm : max? t anchor with
        | error e => simp only [hs, hf, hu, hm, bind, Except.bind] at h; cases h
        | ok max =>
          simp only [hs, hf, hu, hm, bind, Except.bind] at h
          split at h
          · cases h
          · rename_i hbound
            cases h
            exact ⟨hs, hm, ⟨fetch, hf, rfl⟩, ⟨unrolling, hu, rfl⟩, Bool.eq_false_iff.mpr hbound, rfl, rfl, rfl, rfl⟩

/-- What every loop is before its first run. -/
theorem declared_ok (h : declared t anchor key combined = .ok l) :
    l.count = 0 ∧ l.key = key ∧ l.bodyKey = t.keyPath key anchor ∧ l.anchor = anchor :=
  have hd := declared_eq_ok h
  ⟨hd.count, hd.key, hd.bodyKey, hd.anchor⟩

/-- The copies of a loop are loops behind it. -/
theorem mem_copies (h : n ∈ copies t anchor) :
    n ∈ t.followingSiblings anchor ∧ t.name n = "repeat" := by
  unfold copies at h
  split at h
  · cases h
  · rename_i id _
    refine ⟨(List.takeWhile_sublist _).subset h, ?_⟩
    have hp := List.all_eq_true.mp List.all_takeWhile n h
    rw [Bool.and_eq_true] at hp
    exact eq_of_beq hp.1

theorem nodup_copies (h : t.WellFormed) : (copies t anchor).Nodup := by
  unfold copies
  split
  · exact List.nodup_nil
  · refine List.Sublist.nodup (List.takeWhile_sublist _) ?_
    unfold Tree.followingSiblings
    split
    · exact (h.children_nodup _).sublist (List.drop_sublist _ _)
    · exact List.nodup_nil

/-- The tree `t'` is `t` when the loop of `anchor`, a child of `p`, has been entered. -/
structure Entered (t : Tree) (anchor p : NodeId) (t' : Tree) : Prop where
  wellFormed : t'.WellFormed
  live : ∀ n, t'.Live n ↔ t.Live n ∧ ∀ c ∈ copies t anchor, ¬ Under t c n
  parent? : ∀ n, t'.Live n → t'.parent? n = t.parent? n
  content : ∀ n, t'.Live n → n ≠ anchor → t'.content n = t.content n
  node : ∀ n, t'.Live n → n ≠ anchor → n ≠ p → t'.node n = t.node n
  self : t'.node anchor
    = { t.node anchor with computed := { t.computed anchor with seq := some 0 } }
  siblings : t'.children p = (t.children p).filter fun c => !(copies t anchor).contains c

theorem parent?_of_mem_copies (h : t.WellFormed) (hp : t.parent? anchor = some p)
    (hn : n ∈ copies t anchor) : t.parent? n = some p ∧ n ≠ anchor := by
  obtain ⟨q, hq, hnq, hne⟩ := h.mem_followingSiblings (mem_copies hn).1
  rw [hp] at hq
  cases hq
  exact ⟨hnq, hne⟩

theorem entered (h : t.WellFormed) (hp : t.parent? anchor = some p) :
    Entered t anchor p ((dropCopies t anchor).setSeq anchor 0) := by
  have hcs : ∀ c ∈ copies t anchor, t.parent? c = some p :=
    fun c hc => (parent?_of_mem_copies h hp hc).1
  have hd : Dropped t (copies t anchor) (dropCopies t anchor) := h.dropped (nodup_copies h) hcs
  have hself : ∀ c ∈ copies t anchor, ¬ Under t c anchor := fun c hc hu =>
    (parent?_of_mem_copies h hp hc).2 (h.siblings_disjoint (hcs c hc) hp hu .self)
  have hla : (dropCopies t anchor).Live anchor := (hd.live anchor).mpr ⟨(h.live_of_parent hp).1, hself⟩
  have hlive : ∀ n, ((dropCopies t anchor).setSeq anchor 0).Live n ↔ (dropCopies t anchor).Live n :=
    fun n => Tree.live_modify _ _ n _
  have hnode : ∀ n, n ≠ anchor →
      ((dropCopies t anchor).setSeq anchor 0).node n = (dropCopies t anchor).node n :=
    fun n hn => Tree.node_modify_of_ne hn.symm
  have hpa : p ≠ anchor := h.parent_ne hp
  have hpself : ∀ c ∈ copies t anchor, ¬ Under t c p := fun c hc hu =>
    h.not_under_parent (hcs c hc) hu
  refine ⟨hd.wellFormed.modifyComputed _ _, ?_, ?_, ?_, ?_, ?_, ?_⟩
  · exact fun n => (hlive n).trans (hd.live n)
  · intro n hn
    have hu := ((hd.live n).mp ((hlive n).mp hn)).2
    exact (Tree.parent?_modifyComputed _).trans (hd.parent? n hu)
  · intro n hn hne
    have hu := ((hd.live n).mp ((hlive n).mp hn)).2
    rw [← hd.content n hu]
    unfold Tree.content
    rw [hnode n hne]
  · intro n hn hne hnp
    rw [hnode n hne]
    exact hd.node_of_ne h hcs ((hlive n).mp hn) hnp
  · unfold Tree.setSeq Tree.modifyComputed
    rw [Tree.node_modify, if_pos ⟨rfl, hla.1⟩, hd.node_of_ne h hcs hla hpa.symm]
    rfl
  · unfold Tree.children
    rw [hnode p hpa]
    exact hd.children p hpself

/-- Entering a loop leaves every closed set alone that the loop is no part of. -/
theorem Entered.keeps (he : Entered t anchor p t') (h : t.WellFormed)
    (hp : t.parent? anchor = some p) (hc : Closed t P) (hP : ¬ P p) : Keeps P t t' := by
  have hout : ∀ c, t.parent? c = some p → ¬ P c := fun c hcp hPc => hP (hc.up c p hPc hcp)
  intro n hn
  have hl : t'.Live n := (he.live n).mpr ⟨hc.live n hn, fun c hcm =>
    hc.not_under (hout c (parent?_of_mem_copies h hp hcm).1) hn⟩
  refine ⟨hl, he.node n hl ?_ ?_⟩
  · rintro rfl
    exact hout n hp hn
  · rintro rfl
    exact hP hn

theorem enter_ok (h : enter anchor key combined t = .ok l t') :
    declared t anchor key combined = .ok l ∧ t' = (dropCopies t anchor).setSeq anchor 0 := by
  rw [enter, Action.get_bind_eq_ok] at h
  obtain ⟨l, hl, h⟩ := Action.ofExcept_bind_eq_ok.mp h
  rw [Action.modify_bind_eq_ok] at h
  obtain ⟨rfl, rfl⟩ := Action.pure_eq_ok.mp h
  exact ⟨hl, rfl⟩

/-! ## Moving on -/

/-- A loop moves on what it moved on; the documents are the same, only their records differ. -/
def SameFeed : Feed → Feed → Prop
  | .records _, .records _ => True
  | .documents c, .documents c' =>
    c'.entries.map CombinedEntry.root = c.entries.map CombinedEntry.root
  | _, _ => False

theorem SameFeed.refl : ∀ f : Feed, SameFeed f f
  | .records _ => trivial
  | .documents _ => rfl

theorem SameFeed.trans : ∀ {f g h : Feed}, SameFeed f g → SameFeed g h → SameFeed f h
  | .records _, .records _, .records _, _, _ => trivial
  | .documents _, .documents _, .documents _, hfg, hgh => Eq.trans hgh hfg

theorem roots_next (c : Combined) :
    c.next.2.entries.map CombinedEntry.root = c.entries.map CombinedEntry.root := by
  show c.advance.entries.map _ = _
  unfold Combined.advance
  split <;> split <;> rfl

theorem roots_setTable (c : Combined) (i : Nat) (t : Table) :
    (c.setTable i t).entries.map CombinedEntry.root = c.entries.map CombinedEntry.root := by
  unfold Combined.setTable
  refine List.ext_getElem? fun j => ?_
  simp only [List.getElem?_map, List.getElem?_modify]
  cases c.entries[j]? with
  | none => simp
  | some e => by_cases h : i = j <;> simp [h]

theorem roots_readAt (c : Combined) (i : Nat) :
    (c.readAt i).2.entries.map CombinedEntry.root = c.entries.map CombinedEntry.root := by
  unfold Combined.readAt
  split
  · exact roots_setTable ..
  · rfl

namespace Turn

variable {s s₁ s' : Turn} {more : Bool} {c : Combined}

/-- A loop that moves on changes nothing but its strategy and what it moves on. -/
structure Moved (s s' : Turn) : Prop where
  tree : s'.tree = s.tree
  scan : s'.scan = s.scan
  loop : s'.loop = { s.loop with strategy := s'.loop.strategy }
  feed : SameFeed s.feed s'.feed

theorem Moved.refl (s : Turn) : Moved s s := ⟨rfl, rfl, rfl, .refl _⟩

theorem Moved.trans {s₁ : Turn} (h : Moved s s₁) (h' : Moved s₁ s') : Moved s s' where
  tree := h'.tree.trans h.tree
  scan := h'.scan.trans h.scan
  loop := by rw [h'.loop, h.loop]
  feed := h.feed.trans h'.feed

theorem moved_save (h : save s = .ok () s') : Moved s s' := by
  rw [Action.modify_eq_ok.mp h]
  refine ⟨rfl, rfl, rfl, ?_⟩
  cases s.feed with
  | records t => cases t <;> trivial
  | documents c => rfl

theorem moved_readRecord (h : readRecord s = .ok more s') : Moved s s' := by
  rw [readRecord, Action.get_bind_eq_ok] at h
  cases hf : s.feed with
  | records t =>
    cases t with
    | none =>
      simp only [hf] at h
      obtain ⟨-, rfl⟩ := Action.pure_eq_ok.mp h
      exact .refl s
    | some t =>
      simp only [hf] at h
      rw [Action.modify_bind_eq_ok] at h
      obtain ⟨-, rfl⟩ := Action.pure_eq_ok.mp h
      refine ⟨rfl, rfl, rfl, ?_⟩
      rw [hf]
      trivial
  | documents c =>
    simp only [hf] at h
    obtain ⟨-, rfl⟩ := Action.pure_eq_ok.mp h
    exact .refl s

theorem moved_readCurrent {r : Option Bool} (hf : SameFeed s.feed (.documents c))
    (h : readCurrent c s = .ok r s') : Moved s s' := by
  unfold readCurrent at h
  cases hi : c.currentIndex with
  | none =>
    simp only [hi] at h
    obtain ⟨-, rfl⟩ := Action.pure_eq_ok.mp h
    exact .refl s
  | some i =>
    simp only [hi] at h
    rw [Action.modify_bind_eq_ok] at h
    obtain ⟨-, rfl⟩ := Action.pure_eq_ok.mp h
    exact ⟨rfl, rfl, rfl, hf.trans (roots_readAt c i)⟩

theorem moved_moveCounted {reached : Bool} (h : moveCounted reached s = .ok more s') :
    Moved s s' := by
  rw [moveCounted, Action.get_bind_eq_ok] at h
  -- the record is saved before the second run, then the next one is read unless the end is reached
  have hsave : ∀ {x : Action Turn Bool}, (∀ {s₁}, x s₁ = .ok more s' → Moved s₁ s') →
      (if s.loop.count = 1 then do save; x else x) s = .ok more s' → Moved s s' := by
    intro x hx h
    split at h
    · obtain ⟨_, s₁, h₁, h⟩ := Action.bind_eq_ok.mp h
      exact (moved_save h₁).trans (hx h)
    · exact hx h
  split at h
  · split at h
    · refine hsave (fun hp => ?_) h
      obtain ⟨-, rfl⟩ := Action.pure_eq_ok.mp hp
      exact .refl _
    · exact hsave (fun hr => moved_readRecord hr) h
  · obtain ⟨-, rfl⟩ := Action.pure_eq_ok.mp h
    exact .refl s

theorem moved_moveDocuments {previous : Option Nat} (hf : s.feed = .documents c)
    (h : moveDocuments c previous s = .ok more s') : Moved s s' := by
  rw [moveDocuments, Action.get_bind_eq_ok] at h
  split at h
  · dsimp only at h
    rw [Action.modify_bind_eq_ok] at h
    have hn : Moved s { s with feed := .documents c.next.2 } := by
      refine ⟨rfl, rfl, rfl, ?_⟩
      rw [hf]
      exact roots_next c
    refine hn.trans ?_
    split at h
    · obtain ⟨r, s₁, h₁, h⟩ := Action.bind_eq_ok.mp h
      obtain ⟨-, rfl⟩ := Action.pure_eq_ok.mp h
      exact moved_readCurrent (.refl _) h₁
    · obtain ⟨-, rfl⟩ := Action.pure_eq_ok.mp h
      exact .refl _
  · split at h
    · obtain ⟨-, rfl⟩ := Action.pure_eq_ok.mp h
      exact .refl s
    · split at h
      · exact (Action.failAt_eq_ok.mp h).elim
      · rw [setLoop, Action.modify_bind_eq_ok] at h
        obtain ⟨-, rfl⟩ := Action.pure_eq_ok.mp h
        exact ⟨rfl, rfl, rfl, .refl _⟩

theorem moved_moveRecords {previous : Option Int} {reached : Bool} (hf : s.feed = .documents c)
    (h : moveRecords c previous reached s = .ok more s') : Moved s s' := by
  rw [moveRecords, Action.get_bind_eq_ok] at h
  cases hc : c.current? with
  | none =>
    simp only [hc] at h
    exact (Action.failAt_eq_ok.mp h).elim
  | some e =>
    simp only [hc] at h
    split at h
    · split at h
      · obtain ⟨-, rfl⟩ := Action.pure_eq_ok.mp h
        exact .refl s
      · obtain ⟨r, s₁, h₁, h⟩ := Action.bind_eq_ok.mp h
        obtain ⟨-, rfl⟩ := Action.pure_eq_ok.mp h
        exact moved_readCurrent (hf ▸ .refl _) h₁
    · cases ht : e.table with
      | none =>
        simp only [ht] at h
        obtain ⟨-, rfl⟩ := Action.pure_eq_ok.mp h
        exact .refl s
      | some t =>
        simp only [ht] at h
        split at h
        · obtain ⟨-, rfl⟩ := Action.pure_eq_ok.mp h
          exact .refl s
        · split at h
          · exact (Action.failAt_eq_ok.mp h).elim
          · rw [setLoop, Action.modify_bind_eq_ok] at h
            obtain ⟨-, rfl⟩ := Action.pure_eq_ok.mp h
            exact ⟨rfl, rfl, rfl, .refl _⟩

theorem moved_move (h : move s = .ok more s') : Moved s s' := by
  rw [move, Action.get_bind_eq_ok] at h
  cases hs : s.loop.strategy <;> cases hf : s.feed <;> simp only [hs, hf] at h
  case counted.records => exact moved_moveCounted h
  case documents.documents => exact moved_moveDocuments hf h
  case records.documents => exact moved_moveRecords hf h
  all_goals exact (Action.fail_eq_ok.mp h).elim

/-! ## Ending -/

/-- The scan behind a loop that has ended. -/
def behind (s : Turn) : List Position :=
  match s.tree.nextSibling? s.loop.anchor with
  | some next => ⟨s.loop.key, next⟩ :: s.scan
  | none => s.scan

/-- The feed behind a loop that has ended: a record that was saved is the current one again. -/
def restored (s : Turn) : Feed :=
  match s.loop.strategy, s.feed with
  | .counted true, .records table => .records (table.map Table.pop)
  | _, f => f

/-- What ending a loop does. -/
structure Ended (s s' : Turn) : Prop where
  tree : s'.tree = s.tree
  scan : s'.scan = s.behind
  feed : s'.feed = s.restored

theorem ended_finish (h : finish s = .ok () s') : Ended s s' := by
  rw [finish, Action.modify_bind_eq_ok, Action.get_bind_eq_ok] at h
  -- ending the loop restores a record; that changes neither the tree nor the scan
  have hfeed : ∀ x : Turn, x.tree = s.tree → x.scan = s.scan → x.loop.key = s.loop.key →
      x.loop.anchor = s.loop.anchor → x.feed = s.restored →
      (match x.tree.nextSibling? x.loop.anchor with
        | some next => goOn ⟨x.loop.key, next⟩
        | none => (pure () : Action Turn Unit)) x = .ok () s' → Ended s s' := by
    intro x ht hs hk ha hf hx
    rw [ht, ha, hk] at hx
    cases hn : s.tree.nextSibling? s.loop.anchor with
    | some next =>
      simp only [hn] at hx
      rw [Action.modify_eq_ok.mp hx]
      refine ⟨ht, ?_, hf⟩
      unfold behind
      rw [hn, hs]
    | none =>
      simp only [hn] at hx
      obtain ⟨-, rfl⟩ := Action.pure_eq_ok.mp hx
      refine ⟨ht, ?_, hf⟩
      unfold behind
      rw [hn, hs]
  refine hfeed _ ?_ ?_ ?_ ?_ ?_ h
  case refine_5 =>
    unfold restored
    split <;> simp_all
  all_goals split <;> rfl

/-! ## Further runs -/

/-- A copy of the loop is put behind it, and the loop goes over to the copy. -/
structure Unrolled (s : Turn) (p : NodeId) (before after : List NodeId) (s' : Turn) : Prop where
  copy : ∃ t, Grafted s.tree (s.tree.element s.loop.anchor) s'.loop.anchor t
    ∧ PutIn t p (before ++ s.loop.anchor :: s'.loop.anchor :: after) s'.loop.anchor s'.tree
  loop : s'.loop = { s.loop with anchor := s'.loop.anchor }
  feed : s'.feed = s.feed
  scan : s'.scan = s.scan

theorem unrolled {before after : List NodeId} (hwf : s.tree.WellFormed)
    (hs : s.tree.children p = before ++ s.loop.anchor :: after) (h : unroll s = .ok () s') :
    Unrolled s p before after s' := by
  rw [unroll, Action.get_bind_eq_ok] at h
  have hp : s.tree.parent? s.loop.anchor = some p := hwf.mem_children.mp (by rw [hs]; simp)
  obtain ⟨hlive, hlp⟩ := hwf.live_of_parent hp
  have hg := hwf.grafted_deepClone hlive
  have hchildren : (s.tree.deepClone s.loop.anchor).2.children p = before ++ s.loop.anchor :: after := by
    rw [Tree.children, hg.node p hlp]
    exact hs
  obtain ⟨t, hins, hput⟩ := hg.wellFormed.insertAfter_root hchildren hg.live_root hg.parent?_root
    (hg.not_under hwf hlp)
  dsimp only at h
  rw [Action.modify_bind_eq_ok] at h
  obtain ⟨t', ht, h⟩ := Action.ofExcept_bind_eq_ok.mp h
  rw [hins] at ht
  cases ht
  rw [Action.modify_eq_ok.mp h]
  exact ⟨⟨_, hg, hput⟩, rfl, rfl, rfl⟩

/-- What a run that starts does; `s` counts it already, and `first` is the first node below the loop. -/
inductive Runs (s : Turn) (first : NodeId) : Turn → Prop
  | first (h : s.loop.count ≤ 1) :
    Runs s first { s with scan := ⟨s.loop.bodyKey, first⟩ :: s.scan }
  | again (h : 1 < s.loop.count) {r : Turn}
    (hr : if s.loop.unrolling then unroll s = .ok () r else r = s) :
    Runs s first { r with
      tree := r.tree.setSeq r.loop.anchor (r.loop.count - 1)
      scan := ⟨r.loop.bodyKey,
        ((r.tree.setSeq r.loop.anchor (r.loop.count - 1)).firstChild? r.loop.anchor).getD first⟩
          :: r.scan }

/-- The loop with one more run counted. -/
def counted (s : Turn) : Turn := { s with loop := { s.loop with count := s.loop.count + 1 } }

/-- How often a loop has run does not matter when it ends. -/
theorem Ended.of_counted (h : Ended s.counted s') : Ended s s' := ⟨h.tree, h.scan, h.feed⟩

theorem unroll_rest (h : unroll s = .ok () s') :
    s'.feed = s.feed ∧ s'.loop = { s.loop with anchor := s'.loop.anchor } := by
  rw [unroll, Action.get_bind_eq_ok] at h
  dsimp only at h
  rw [Action.modify_bind_eq_ok] at h
  obtain ⟨t, -, h⟩ := Action.ofExcept_bind_eq_ok.mp h
  rw [Action.modify_eq_ok.mp h]
  exact ⟨rfl, rfl⟩

theorem rest_of_runs {first : NodeId} (h : Runs s.counted first s') :
    s'.feed = s.feed ∧ s'.loop = { s.loop with count := s.loop.count + 1, anchor := s'.loop.anchor } := by
  cases h with
  | first => exact ⟨rfl, rfl⟩
  | @again hc r hr =>
    split at hr
    · obtain ⟨hf, hl⟩ := unroll_rest hr
      exact ⟨hf, hl⟩
    · subst hr
      exact ⟨rfl, rfl⟩

theorem start_ok (h : start s = .ok more s') :
    (more = false ∧ Ended s.counted s'
        ∧ (s.tree.firstChild? s.loop.anchor = none ∨ s.loop.max.any (· < s.loop.count + 1) = true))
      ∨ more = true ∧ s.loop.max.any (· < s.loop.count + 1) = false
        ∧ ∃ first, s.tree.firstChild? s.loop.anchor = some first ∧ Runs s.counted first s' := by
  rw [start, setLoop, Action.modify_bind_eq_ok, Action.get_bind_eq_ok] at h
  have hend : ∀ {b : Bool}, (do finish; return false : Action Turn Bool) s.counted = .ok b s' →
      b = false ∧ Ended s.counted s' := by
    intro b hb
    obtain ⟨_, s₁, h₁, hb⟩ := Action.bind_eq_ok.mp hb
    obtain ⟨rfl, rfl⟩ := Action.pure_eq_ok.mp hb
    exact ⟨rfl, ended_finish h₁⟩
  cases hf : s.tree.firstChild? s.loop.anchor with
  | none =>
    simp only [hf] at h
    obtain ⟨hm, he⟩ := hend h
    exact .inl ⟨hm, he, .inl rfl⟩
  | some first =>
    simp only [hf] at h
    split at h
    · rename_i hmax
      obtain ⟨hm, he⟩ := hend h
      exact .inl ⟨hm, he, .inr hmax⟩
    · rename_i hmax
      refine .inr ?_
      have hmax' : s.loop.max.any (· < s.loop.count + 1) = false := Bool.eq_false_iff.mpr hmax
      split at h
      · rename_i hcount
        have hagain : ∀ {r : Turn}, (do
            modify fun s => { s with tree := s.tree.setSeq s.loop.anchor (s.loop.count - 1) }
            let s ← get
            goOn ⟨s.loop.bodyKey, (s.tree.firstChild? s.loop.anchor).getD first⟩
            return true : Action Turn Bool) r = .ok more s' →
            (if s.counted.loop.unrolling then unroll s.counted = .ok () r else r = s.counted) →
            more = true ∧ Runs s.counted first s' := by
          intro r hr hu
          rw [Action.modify_bind_eq_ok, Action.get_bind_eq_ok, goOn,
            Action.modify_bind_eq_ok] at hr
          obtain ⟨rfl, rfl⟩ := Action.pure_eq_ok.mp hr
          exact ⟨rfl, .again hcount hu⟩
        split at h
        · rename_i hun
          obtain ⟨_, r, h₁, h⟩ := Action.bind_eq_ok.mp h
          obtain ⟨hm, hr⟩ := hagain h
            (by rw [if_pos (show s.counted.loop.unrolling = true from hun)]; exact h₁)
          exact ⟨hm, hmax', first, rfl, hr⟩
        · rename_i hun
          obtain ⟨hm, hr⟩ := hagain h
            (by rw [if_neg (show ¬ s.counted.loop.unrolling = true from hun)]; rfl)
          exact ⟨hm, hmax', first, rfl, hr⟩
      · rename_i hcount
        rw [goOn, Action.modify_bind_eq_ok] at h
        obtain ⟨rfl, rfl⟩ := Action.pure_eq_ok.mp h
        exact ⟨rfl, hmax', first, rfl, .first (Nat.le_of_not_lt hcount)⟩

/-- The tree when one more run of a loop below `p` has begun: the node of the run was `a` and is now
    `a'`, which is `a` itself or a new node. -/
structure Advanced (t : Tree) (p a a' : NodeId) (t' : Tree) : Prop where
  wellFormed : t'.WellFormed
  live : ∀ n, t.Live n → t'.Live n
  parent? : ∀ n, t.Live n → t'.parent? n = t.parent? n
  content : ∀ n, t.Live n → n ≠ a' → t'.content n = t.content n
  node : ∀ n, t.Live n → n ≠ a' → n ≠ p → t'.node n = t.node n
  same : a' = a ∨ ¬ t.Live a'
  parent : t'.parent? a' = some p
  name : t'.name a' = t.name a
  attrs : (t'.node a').attrs = (t.node a).attrs
  repeatId : (t'.computed a').repeatId = (t.computed a).repeatId
  first : t.children a ≠ [] → t'.children a' ≠ []
  new : ∀ n, t'.Live n → ¬ t.Live n → ¬ t.Live a' ∧ Under t' a' n
  body : t.Live a' → t'.children a' = t.children a'
  siblings : a' = a ∧ t'.children p = t.children p ∧ (∀ n, t'.Live n → t.Live n)
    ∨ ∃ before after, t.children p = before ++ a :: after
      ∧ t'.children p = before ++ a :: a' :: after
  copy : ¬ t.Live a' → ∃ es, HoldsAll t (t.children a) es ∧ HoldsAll t' (t'.children a') es

namespace Advanced

variable {t t' t₁ : Tree} {p a a' : NodeId} {P : NodeId → Prop}

theorem refl (h : t.WellFormed) (hp : t.parent? a = some p) : Advanced t p a a t :=
  ⟨h, fun _ hn => hn, fun _ _ => rfl, fun _ _ _ => rfl, fun _ _ _ _ => rfl, .inl rfl, hp, rfl, rfl, rfl,
    id, fun _ hn hnot => absurd hn hnot, fun _ => rfl, .inl ⟨rfl, rfl, fun _ hn => hn⟩,
    fun hnot => absurd (h.live_of_parent hp).1 hnot⟩

theorem setSeq (h : Advanced t p a a' t') (k : Nat) : Advanced t p a a' (t'.setSeq a' k) where
  wellFormed := h.wellFormed.modifyComputed _ _
  live := fun n hn => (Tree.live_modify _ _ n _).mpr (h.live n hn)
  parent? := fun n hn => (Tree.parent?_modifyComputed _).trans (h.parent? n hn)
  content := by
    intro n hn hne
    rw [← h.content n hn hne]
    unfold Tree.content Tree.setSeq Tree.modifyComputed
    rw [Tree.node_modify_of_ne hne.symm]
  node := by
    intro n hn hne hp
    rw [← h.node n hn hne hp]
    exact Tree.node_modify_of_ne hne.symm
  same := h.same
  parent := (Tree.parent?_modifyComputed _).trans h.parent
  name := by
    rw [← h.name]
    unfold Tree.name Tree.setSeq Tree.modifyComputed
    rw [Tree.node_modify]
    split <;> rfl
  attrs := by
    rw [← h.attrs]
    unfold Tree.setSeq Tree.modifyComputed
    rw [Tree.node_modify]
    split <;> rfl
  repeatId := by
    rw [← h.repeatId]
    unfold Tree.computed Tree.setSeq Tree.modifyComputed
    rw [Tree.node_modify]
    split <;> rfl
  first := by
    intro hne
    unfold Tree.setSeq
    rw [Tree.children_modifyComputed]
    exact h.first hne
  new := by
    intro n hn hnot
    obtain ⟨ha, hu⟩ := h.new n ((Tree.live_modify _ _ n _).mp hn) hnot
    exact ⟨ha, (Tree.under_congr fun m _ => Tree.parent?_modifyComputed _).mpr hu⟩
  body := by
    unfold Tree.setSeq
    rw [Tree.children_modifyComputed]
    exact h.body
  siblings := by
    unfold Tree.setSeq
    rw [Tree.children_modifyComputed]
    refine h.siblings.imp_left fun ⟨ha, hc, hl⟩ => ⟨ha, hc, fun n hn => ?_⟩
    exact hl n ((Tree.live_modify _ _ n _).mp hn)
  copy := by
    intro hnot
    obtain ⟨es, he, he'⟩ := h.copy hnot
    refine ⟨es, he, ?_⟩
    unfold Tree.setSeq
    rw [Tree.children_modifyComputed]
    refine he'.congr h.wellFormed fun i hi n hu => Tree.node_modify_of_ne ?_
    rintro rfl
    exact h.wellFormed.not_under_parent (h.wellFormed.mem_children.mp hi) hu

theorem seq_setSeq (h : Advanced t p a a' t') (k : Nat) :
    ((t'.setSeq a' k).computed a').seq = some k := by
  have hl := (h.wellFormed.live_of_parent h.parent).1
  unfold Tree.computed Tree.setSeq Tree.modifyComputed
  rw [Tree.node_modify, if_pos ⟨rfl, hl.1⟩]

/-- The body of a further run is the one of the run before, or a copy of it. -/
theorem copies (h : Advanced t p a a' t') (hwf : t.WellFormed) (ha : t.parent? a = some p) :
    ∃ es, HoldsAll t (t.children a) es ∧ HoldsAll t' (t'.children a') es := by
  by_cases hl : t.Live a'
  · obtain rfl : a' = a := h.same.resolve_right fun hnot => hnot hl
    refine ⟨_, (hwf.holds_element a').children, ?_⟩
    rw [h.body hl]
    refine (hwf.holds_element a').children.congr hwf fun c hc n hn => ?_
    have hca := hwf.mem_children.mp hc
    refine h.node n (hwf.live_of_under (hwf.live_of_parent hca).1 hn) ?_ ?_
    · rintro rfl
      exact hwf.not_under_parent hca hn
    · rintro rfl
      exact hwf.not_under_parent ha ((Tree.under_of_parent hca).trans hn)
  · exact h.copy hl

/-- A further run leaves every closed set alone that the loop is no part of. -/
theorem keeps (h : Advanced t p a a' t') (ha : t.parent? a = some p) (hc : Closed t P)
    (hP : ¬ P p) : Keeps P t t' := by
  intro n hn
  have hl := hc.live n hn
  refine ⟨h.live n hl, h.node n hl ?_ ?_⟩
  · rintro rfl
    rcases h.same with rfl | hnot
    · exact hP (hc.up _ _ hn ha)
    · exact hnot hl
  · rintro rfl
    exact hP hn

end Advanced

theorem Unrolled.advanced {p : NodeId} {before after : List NodeId} (hu : Unrolled s p before after s')
    (hwf : s.tree.WellFormed) (hs : s.tree.children p = before ++ s.loop.anchor :: after) :
    Advanced s.tree p s.loop.anchor s'.loop.anchor s'.tree := by
  obtain ⟨t, hg, hput⟩ := hu.copy
  have hp : s.tree.parent? s.loop.anchor = some p := hwf.mem_children.mp (by rw [hs]; simp)
  have hne : ∀ n, s.tree.Live n → n ≠ s'.loop.anchor := fun n hn he => hg.fresh (he ▸ hn)
  have hcontent : s'.tree.content s'.loop.anchor = s.tree.content s.loop.anchor := by
    rw [hput.content, hg.holds.content, (hwf.holds_element s.loop.anchor).content]
  have hnp : s'.loop.anchor ≠ p := fun he => hg.fresh (he ▸ (hwf.live_of_parent hp).2)
  have hname := congrArg Node.name hcontent
  have hattrs := congrArg Node.attrs hcontent
  have hnode : ∀ n, n ≠ s'.loop.anchor → n ≠ p → s'.tree.node n = t.node n := by
    intro n hna hnp
    refine Tree.node_eq_of_views (hput.content n) ?_ ?_
    · rw [hput.children, if_neg hnp]
    · rw [hput.parent?, if_neg hna]
  have hchildren : s'.tree.children s'.loop.anchor = t.children s'.loop.anchor := by
    rw [hput.children, if_neg hnp]
  refine ⟨hput.wellFormed, fun n hn => (hput.live n).mpr (hg.live n hn), ?_, ?_, ?_, .inr hg.fresh, ?_,
    hname, hattrs, congrArg (fun x => x.computed.repeatId) hcontent, ?_, ?_, fun hl => absurd hl hg.fresh,
    .inr ⟨before, after, hs, ?_⟩, fun _ => ⟨_, (hwf.holds_element _).children, ?_⟩⟩
  · intro n hn
    rw [hput.parent?, if_neg (hne n hn), Tree.parent?, hg.node n hn]
    rfl
  · intro n hn _
    rw [hput.content]
    unfold Tree.content
    rw [hg.node n hn]
  · intro n hn hna hnp
    rw [← hg.node n hn]
    exact hnode n hna hnp
  · rw [hput.parent?, if_pos rfl]
  · intro hch
    rw [hchildren]
    rw [ne_eq, hg.holds.children.eq_nil_iff,
      ← (hwf.holds_element s.loop.anchor).children.eq_nil_iff]
    exact hch
  · intro n hn hnot
    have hu := hg.new n ((hput.live n).mp hn) hnot
    refine ⟨hg.fresh, ?_⟩
    clear hn hnot
    induction hu with
    | self => exact .self
    | @child q c hq _ ih =>
      refine .child ?_ ih
      rw [hput.parent?, if_neg, hq]
      rintro rfl
      rw [hg.parent?_root] at hq
      cases hq
  · rw [hput.children, if_pos rfl]
  · rw [hchildren]
    refine hg.holds.children.congr hg.wellFormed fun i hi n hn => hnode n ?_ ?_
    · rintro rfl
      exact hg.wellFormed.not_under_parent (hg.wellFormed.mem_children.mp hi) hn
    · rintro rfl
      have hi' := Tree.under_of_parent (hg.wellFormed.mem_children.mp hi)
      exact hg.not_under hwf (hwf.live_of_parent hp).2 (hi'.trans hn)

/-- What a loop that goes on does. -/
structure Continues (s : Turn) (p : NodeId) (s' : Turn) : Prop where
  advanced : Advanced s.tree p s.loop.anchor s'.loop.anchor s'.tree
  count : s'.loop.count = s.loop.count + 1
  key : s'.loop.key = s.loop.key
  bodyKey : s'.loop.bodyKey = s.loop.bodyKey
  seq : (s'.tree.computed s'.loop.anchor).seq
    = if s.loop.count = 0 then (s.tree.computed s.loop.anchor).seq else some s.loop.count
  begins : ∃ first, s'.scan = ⟨s.loop.bodyKey, first⟩ :: s.scan
    ∧ s'.tree.firstChild? s'.loop.anchor = some first
  feed : SameFeed s.feed s'.feed
  firstRun : s.loop.count = 0 → s'.tree = s.tree ∧ s'.loop.anchor = s.loop.anchor

theorem Continues.scan {p : NodeId} (h : Continues s p s') :
    ∃ first, s'.scan = ⟨s.loop.bodyKey, first⟩ :: s.scan
      ∧ s'.tree.parent? first = some s'.loop.anchor := by
  obtain ⟨first, hscan, hf⟩ := h.begins
  exact ⟨first, hscan, h.advanced.wellFormed.mem_children.mp (List.mem_of_head? hf)⟩

theorem Runs.continues {p first : NodeId} (hwf : s.tree.WellFormed)
    (hp : s.tree.parent? s.loop.anchor = some p)
    (hf : s.tree.firstChild? s.loop.anchor = some first) (h : Runs s.counted first s') :
    Continues s p s' := by
  have hne : s.tree.children s.loop.anchor ≠ [] := by
    intro he
    rw [Tree.firstChild?, he] at hf
    cases hf
  cases h with
  | first hc =>
    have h0 : s.loop.count = 0 := Nat.le_zero.mp (Nat.le_of_succ_le_succ hc)
    refine ⟨.refl hwf hp, rfl, rfl, rfl, ?_, ⟨first, rfl, hf⟩, .refl _, fun _ => ⟨rfl, rfl⟩⟩
    rw [if_pos h0]
    rfl
  | @again hc r hr =>
    have h0 : s.loop.count ≠ 0 := fun he => by
      rw [show s.counted.loop.count = s.loop.count + 1 from rfl, he] at hc
      omega
    -- the run is on the node of the loop or on a copy of it
    have hadv : Advanced s.tree p s.loop.anchor r.loop.anchor r.tree
        ∧ r.loop.count = s.loop.count + 1 ∧ r.loop.key = s.loop.key
        ∧ r.loop.bodyKey = s.loop.bodyKey ∧ r.feed = s.feed ∧ r.scan = s.scan := by
      split at hr
      · obtain ⟨before, after, hs⟩ := hwf.exists_split hp
        have hu := unrolled (s := s.counted) hwf hs hr
        have hl := hu.loop
        exact ⟨hu.advanced hwf hs, by rw [hl]; rfl, by rw [hl]; rfl, by rw [hl]; rfl, hu.feed, hu.scan⟩
      · subst hr
        exact ⟨.refl hwf hp, rfl, rfl, rfl, rfl, rfl⟩
    obtain ⟨ha, hcount, hkey, hbody, hfeed, hscan⟩ := hadv
    have ha' := ha.setSeq (r.loop.count - 1)
    refine ⟨ha', hcount, hkey, hbody, ?_, ?_, ?_, fun he => absurd he h0⟩
    · rw [if_neg h0, ha.seq_setSeq, hcount]
      rfl
    · obtain ⟨x, xs, hx⟩ := List.exists_cons_of_ne_nil (ha'.first hne)
      refine ⟨x, ?_, by rw [Tree.firstChild?, hx]; rfl⟩
      show (⟨r.loop.bodyKey, _⟩ :: r.scan : List Position) = _
      rw [hbody, hscan, Tree.firstChild?, hx]
      rfl
    · show SameFeed s.feed r.feed
      rw [hfeed]
      exact .refl _

/-- What a loop that ends does. -/
structure Ends (s s' : Turn) : Prop where
  tree : s'.tree = s.tree
  scan : s'.scan = s.behind
  feed : SameFeed s.feed s'.feed

theorem sameFeed_restored (s : Turn) : SameFeed s.feed s.restored := by
  unfold restored
  split
  · rename_i hf
    rw [hf]
    trivial
  · exact .refl _

/-- What a call can do.  It ends the loop, and it has not moved on then, or has nothing to run, or has run often
    enough; or it begins a run. -/
theorem next_cases (h : next s = .ok more s') : ∃ moved s₁, move s = .ok moved s₁
    ∧ (more = false ∧ Ended s₁ s' ∧ (moved = true → s₁.tree.firstChild? s₁.loop.anchor = none
          ∨ s₁.loop.max.any (· < s₁.loop.count + 1) = true)
      ∨ more = true ∧ moved = true ∧ s₁.loop.max.any (· < s₁.loop.count + 1) = false
        ∧ ∃ first, s₁.tree.firstChild? s₁.loop.anchor = some first ∧ Runs s₁.counted first s') := by
  unfold next at h
  obtain ⟨moved, s₁, h₁, h⟩ := Action.bind_eq_ok.mp h
  refine ⟨moved, s₁, h₁, ?_⟩
  split at h
  · rename_i hmoved
    rcases start_ok h with ⟨hno, he, hwhy⟩ | ⟨hmore, hmax, hruns⟩
    · exact .inl ⟨hno, he.of_counted, fun _ => hwhy⟩
    · exact .inr ⟨hmore, hmoved, hmax, hruns⟩
  · rename_i hmoved
    obtain ⟨_, s₂, h₂, h⟩ := Action.bind_eq_ok.mp h
    obtain ⟨rfl, rfl⟩ := Action.pure_eq_ok.mp h
    exact .inl ⟨rfl, ended_finish h₂, fun hyes => absurd hyes hmoved⟩

/-- A loop goes on or ends. -/
theorem next_ok {p : NodeId} (hwf : s.tree.WellFormed)
    (hp : s.tree.parent? s.loop.anchor = some p) (h : next s = .ok more s') :
    if more then Continues s p s' else Ends s s' := by
  obtain ⟨moved, s₁, h₁, h⟩ := next_cases h
  have hm := moved_move h₁
  have hanchor : s₁.loop.anchor = s.loop.anchor := by rw [hm.loop]
  have hkey : s₁.loop.key = s.loop.key := by rw [hm.loop]
  rcases h with ⟨rfl, he, -⟩ | ⟨rfl, -, -, first, hf, hr⟩
  · refine ⟨he.tree.trans hm.tree, ?_, ?_⟩
    · rw [he.scan]
      unfold behind
      rw [hm.tree, hanchor, hkey, hm.scan]
    · rw [he.feed]
      exact hm.feed.trans (sameFeed_restored s₁)
  · have hc := Runs.continues (p := p) (by rw [hm.tree]; exact hwf)
      (by rw [hm.tree, hanchor]; exact hp) hf hr
    have hcount : s₁.loop.count = s.loop.count := by rw [hm.loop]
    have hbody : s₁.loop.bodyKey = s.loop.bodyKey := by rw [hm.loop]
    refine ⟨?_, ?_, ?_, ?_, ?_, ?_, hm.feed.trans hc.feed, fun h0 => ?_⟩
    · have := hc.advanced
      rw [hm.tree, hanchor] at this
      exact this
    · rw [hc.count, hcount]
    · rw [hc.key, hkey]
    · rw [hc.bodyKey, hbody]
    · rw [hc.seq, hcount, hm.tree, hanchor]
    · rw [← hbody, ← hm.scan]
      exact hc.begins
    · rw [← hm.tree, ← hanchor]
      exact hc.firstRun (hcount.trans h0)

/-! ## What cannot fail -/

theorem exists_finish (s : Turn) : ∃ s', finish s = .ok () s' := by
  have hbehind : ∀ x : Turn, ∃ s', (match x.tree.nextSibling? x.loop.anchor with
      | some next => goOn ⟨x.loop.key, next⟩
      | none => (pure () : Action Turn Unit)) x = .ok () s' := fun x => by
    cases x.tree.nextSibling? x.loop.anchor <;> exact ⟨_, rfl⟩
  rw [finish, Action.modify_bind, Action.get_bind]
  exact hbehind _

/-- A copy of the loop can be put behind it. -/
theorem exists_unroll {p : NodeId} (hwf : s.tree.WellFormed) (hp : s.tree.parent? s.loop.anchor = some p) :
    ∃ s', unroll s = .ok () s' := by
  obtain ⟨before, after, hs⟩ := hwf.exists_split hp
  obtain ⟨hlive, hlp⟩ := hwf.live_of_parent hp
  have hg := hwf.grafted_deepClone hlive
  have hchildren : (s.tree.deepClone s.loop.anchor).2.children p = before ++ s.loop.anchor :: after := by
    rw [Tree.children, hg.node p hlp]
    exact hs
  obtain ⟨t, hins, -⟩ := hg.wellFormed.insertAfter_root hchildren hg.live_root hg.parent?_root (hg.not_under hwf hlp)
  rw [unroll, Action.get_bind]
  dsimp only
  rw [Action.modify_bind, hins]
  exact ⟨_, rfl⟩

/-- A loop with nothing to run, or that has run often enough, ends. -/
theorem start_ends (h : s.tree.firstChild? s.loop.anchor = none ∨ s.loop.max.any (· < s.loop.count + 1) = true) :
    ∃ s', start s = .ok false s' ∧ Ended s s' := by
  obtain ⟨ended, hended⟩ := exists_finish s.counted
  refine ⟨ended, ?_, (ended_finish hended).of_counted⟩
  rw [start, setLoop, Action.modify_bind, Action.get_bind]
  cases hf : s.tree.firstChild? s.loop.anchor with
  | none =>
    dsimp only
    exact (Action.bind_of_ok hended).trans rfl
  | some first =>
    have hmax := h.resolve_left (by rw [hf]; exact Option.some_ne_none first)
    dsimp only
    rw [if_pos hmax]
    exact (Action.bind_of_ok hended).trans rfl

/-- A loop that has moved on starts one more run, or ends.  Only a copy needs a parent. -/
theorem exists_start (hwf : s.tree.WellFormed) (hcopy : s.loop.unrolling = true → 0 < s.loop.count →
    ∃ p, s.tree.parent? s.loop.anchor = some p) : ∃ more s', start s = .ok more s' := by
  by_cases hend : s.tree.firstChild? s.loop.anchor = none ∨ s.loop.max.any (· < s.loop.count + 1) = true
  · obtain ⟨s', hs', -⟩ := start_ends hend
    exact ⟨false, s', hs'⟩
  obtain ⟨hbody, hmax⟩ := not_or.mp hend
  obtain ⟨first, hf⟩ := Option.ne_none_iff_exists'.mp hbody
  rw [start, setLoop, Action.modify_bind, Action.get_bind]
  simp only [hf]
  rw [if_neg hmax]
  split
  · rename_i hcount
    split
    · rename_i hun
      obtain ⟨p, hp⟩ := hcopy hun (Nat.lt_of_succ_lt_succ hcount)
      obtain ⟨s', hs'⟩ := exists_unroll (s := s.counted) hwf hp
      exact ⟨_, _, (Action.bind_of_ok hs').trans rfl⟩
    · exact ⟨_, _, rfl⟩
  · exact ⟨_, _, rfl⟩

/-- A loop that has moved on starts. -/
theorem next_of_moved (h : move s = .ok true s₁) : next s = start s₁ := by
  unfold next
  exact Action.bind_of_ok h

/-- A loop that could not move on ends. -/
theorem next_of_not_moved (h : move s = .ok false s₁) : ∃ s', next s = .ok false s' ∧ Ended s₁ s' := by
  obtain ⟨s', hs'⟩ := exists_finish s₁
  refine ⟨s', ?_, ended_finish hs'⟩
  unfold next
  rw [Action.bind_of_ok h]
  exact Action.bind_of_ok hs'

end Turn

end Stencil.Loop
