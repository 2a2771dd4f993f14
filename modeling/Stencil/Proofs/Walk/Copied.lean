/-
  Copies of loops, and how a walk comes to them.

  A loop that unrolls puts copies of itself behind its node.  A copy can be told from its place: the node
  before it is a loop of the same number (`Copied`).

    * When a loop is entered, the copies behind it are dropped, and what then follows is no copy
      (`Entered.not_copied_next`).  Nothing else makes a copy of a node that is there (`Stays`).
    * So a walk goes to a copy in the run of its loop only: neither the positions on the scan nor what follows
      a loop that runs are copies (`Tidy`).
-/
import Stencil.Proofs.Walk.Progress

set_option autoImplicit false

namespace Stencil

variable {t t' : Tree}

/-- The number of a loop; none if the node is no loop, or has not got its number yet. -/
def Tree.loopId? (t : Tree) (n : NodeId) : Option Nat :=
  if t.name n = "repeat" then (t.computed n).repeatId else none

theorem Tree.loopId?_congr {n m : NodeId} (hname : t'.name n = t.name m)
    (hid : (t'.computed n).repeatId = (t.computed m).repeatId) : t'.loopId? n = t.loopId? m := by
  unfold loopId?
  rw [hname, hid]

theorem Tree.name_of_loopId? {n : NodeId} {k : Nat} (h : t.loopId? n = some k) : t.name n = "repeat" := by
  unfold loopId? at h
  by_contra hne
  rw [if_neg hne] at h
  cases h

theorem Tree.nextSibling?_congr {n p : NodeId} (hwf : t.WellFormed) (hwf' : t'.WellFormed)
    (hp : t.parent? n = some p) (hc : t'.children p = t.children p) : t'.nextSibling? n = t.nextSibling? n := by
  obtain ⟨before, after, hs⟩ := hwf.exists_split hp
  rw [hwf.nextSibling?_of_split hs, hwf'.nextSibling?_of_split (hc.trans hs)]

/-- A node with a next sibling has the parent of that one. -/
theorem Tree.WellFormed.parent?_of_next {n m p : NodeId} (hwf : t.WellFormed) (h : t.nextSibling? n = some m)
    (hp : t.parent? m = some p) : t.parent? n = some p := by
  cases hn : t.parent? n with
  | none =>
    rw [Tree.nextSibling?_of_root hn] at h
    cases h
  | some q => exact (hwf.parent?_of_nextSibling? hn h).symm.trans hp

/-- No two nodes have one next sibling. -/
theorem Tree.WellFormed.nextSibling?_inj {m n c : NodeId} (hwf : t.WellFormed) (hm : t.nextSibling? m = some c)
    (hn : t.nextSibling? n = some c) : m = n := by
  cases hp : t.parent? m with
  | none =>
    rw [Tree.nextSibling?_of_root hp] at hm
    cases hm
  | some p =>
    have hpn := hwf.parent?_of_next hn (hwf.parent?_of_nextSibling? hp hm)
    obtain ⟨before, after, hs⟩ := hwf.exists_split hp
    obtain ⟨before', after', hs'⟩ := hwf.exists_split hpn
    rw [hwf.nextSibling?_of_split hs] at hm
    rw [hwf.nextSibling?_of_split hs'] at hn
    obtain ⟨rest, rfl⟩ := List.head?_eq_some_iff.mp hm
    obtain ⟨rest', rfl⟩ := List.head?_eq_some_iff.mp hn
    -- the common next sibling is listed once, so the lists before it agree
    have hlist : (before ++ [m]) ++ c :: rest = (before' ++ [n]) ++ c :: rest' := by
      simpa using hs.symm.trans hs'
    have hnd := hwf.children_nodup p
    rw [show t.children p = (before ++ [m]) ++ c :: rest by rw [hs]; simp] at hnd
    have hnot : c ∉ before ++ [m] := fun hc =>
      (List.nodup_append.mp hnd).2.2 c hc c List.mem_cons_self rfl
    have hnd' := hnd
    rw [hlist] at hnd'
    have hnot' : c ∉ before' ++ [n] := fun hc =>
      (List.nodup_append.mp hnd').2.2 c hc c List.mem_cons_self rfl
    have htake := congrArg (List.takeWhile (· ≠ c)) hlist
    rw [List.takeWhile_append_of_pos (by intro x hx; simp; rintro rfl; exact hnot hx),
      List.takeWhile_append_of_pos (by intro x hx; simp; rintro rfl; exact hnot' hx)] at htake
    simp only [List.takeWhile_cons, ne_eq, not_true_eq_false, decide_false, Bool.false_eq_true, if_false,
      List.append_nil] at htake
    exact (List.append_inj_right' htake rfl |> List.cons.inj).1

namespace Walk

open Stencil.Tree (Under Inner KeepsShape Added)
open Loop (Entered copies)
open Loop.Turn (Continues Advanced)
open Work (Level)

variable {rs : List NodeId} {root p n q a a' m c : NodeId} {r : Run} {f g : Frame} {loops : List Loop}
  {scan : List Position} {key : String}

/-! ## Copies -/

/-- A node is a copy of the loop right before it: the two have one number. -/
def Copied (t : Tree) (c : NodeId) : Prop :=
  ∃ b k, t.nextSibling? b = some c ∧ t.loopId? b = some k ∧ t.loopId? c = some k

theorem Copied.name (h : Copied t c) : t.name c = "repeat" := by
  obtain ⟨_, _, -, -, hc⟩ := h
  exact Tree.name_of_loopId? hc

theorem Copied.exists_parent (hwf : t.WellFormed) (h : Copied t c) : ∃ p, t.parent? c = some p := by
  obtain ⟨b, _, hn, -, -⟩ := h
  cases hp : t.parent? b with
  | none =>
    rw [Tree.nextSibling?_of_root hp] at hn
    cases hn
  | some p => exact ⟨p, hwf.parent?_of_nextSibling? hp hn⟩

/-- What stands first below a node is no copy. -/
theorem not_copied_first (hwf : t.WellFormed) (h : t.firstChild? p = some c) : ¬ Copied t c := by
  rintro ⟨b, k, hn, -, -⟩
  obtain ⟨cs, hcs⟩ := List.head?_eq_some_iff.mp h
  have hp : t.parent? c = some p := hwf.mem_children.mp (by rw [hcs]; exact List.mem_cons_self)
  obtain ⟨before, after, hs⟩ := hwf.exists_split (hwf.parent?_of_next hn hp)
  rw [hwf.nextSibling?_of_split hs] at hn
  obtain ⟨rest, rfl⟩ := List.head?_eq_some_iff.mp hn
  -- the first child would be listed twice
  have hnd := hwf.children_nodup p
  rw [hs] at hnd
  cases before with
  | nil =>
    rw [hs] at hcs
    cases hcs
    exact (List.nodup_cons.mp hnd).1 List.mem_cons_self
  | cons x before =>
    rw [hs] at hcs
    cases hcs
    exact (List.nodup_cons.mp hnd).1 (by simp)

/-- What stands behind a node is no copy unless the node is a loop. -/
theorem not_copied_next (hwf : t.WellFormed) (h : t.nextSibling? n = some c) (hname : t.name n ≠ "repeat") :
    ¬ Copied t c := by
  rintro ⟨b, k, hn, hb, -⟩
  rw [hwf.nextSibling?_inj hn h] at hb
  exact hname (Tree.name_of_loopId? hb)

/-- The copies of a loop are copies, each of them of the one before. -/
theorem copied_of_mem_copies (hwf : t.WellFormed) (hname : t.name n = "repeat") (h : c ∈ copies t n) :
    Copied t c := by
  obtain ⟨p, hp, -⟩ := hwf.mem_followingSiblings (Loop.mem_copies h).1
  obtain ⟨before, after, hs⟩ := hwf.exists_split hp
  unfold copies at h
  cases hid : (t.computed n).repeatId with
  | none =>
    simp only [hid] at h
    cases h
  | some k =>
    simp only [hid] at h
    rw [hwf.followingSiblings_of_split hs] at h
    have hn : t.loopId? n = some k := by
      unfold Tree.loopId?
      rw [if_pos hname, hid]
    -- along the copies, each has the number of the one before
    clear hp hid hname
    induction after generalizing before n with
    | nil => cases h
    | cons x after ih =>
      rw [List.takeWhile_cons] at h
      split at h
      · rename_i hx
        rw [Bool.and_eq_true, beq_iff_eq, beq_iff_eq] at hx
        have hxk : t.loopId? x = some k := by
          unfold Tree.loopId?
          rw [if_pos hx.1, hx.2]
        rcases List.mem_cons.mp h with rfl | h
        · exact ⟨n, k, by rw [hwf.nextSibling?_of_split hs]; rfl, hn, hxk⟩
        · exact ih (before ++ [n]) (by rw [hs]; simp) h hxk
      · cases h

/-! ## What does not become a copy -/

/-- A node is in `t'` where it is in `t`, it declares the same, and it has not become a copy. -/
structure Stays (t t' : Tree) (m : NodeId) : Prop where
  parent? : t'.parent? m = t.parent? m
  name : t'.name m = t.name m
  attrs : (t'.node m).attrs = (t.node m).attrs
  copied : Copied t' m → Copied t m

/-- A loop of the number of a node comes before it only where one did. -/
theorem Stays.of_next (hp : t'.parent? m = t.parent? m) (hname : t'.name m = t.name m)
    (hattrs : (t'.node m).attrs = (t.node m).attrs) (hid : (t'.computed m).repeatId = (t.computed m).repeatId)
    (h : ∀ b k, t'.nextSibling? b = some m → t'.loopId? b = some k → t.loopId? m = some k →
      ∃ b', t.nextSibling? b' = some m ∧ t.loopId? b' = some k) : Stays t t' m where
  parent? := hp
  name := hname
  attrs := hattrs
  copied := by
    rintro ⟨b, k, hn, hb, hm⟩
    rw [Tree.loopId?_congr hname hid] at hm
    obtain ⟨b', hn', hb'⟩ := h b k hn hb hm
    exact ⟨b', k, hn', hb', hm⟩

/-- Where a list of siblings is kept, none of them becomes a copy. -/
theorem Stays.of_list (hwf : t.WellFormed) (hwf' : t'.WellFormed) (hm : t.parent? m = some q)
    (hc : t'.children q = t.children q) (hname : ∀ b ∈ t.children q, t'.name b = t.name b)
    (hattrs : (t'.node m).attrs = (t.node m).attrs)
    (hid : ∀ b ∈ t.children q, (t'.computed b).repeatId = (t.computed b).repeatId) : Stays t t' m := by
  have hmem := hwf.mem_children.mpr hm
  have hm' : t'.parent? m = some q := by
    rw [← hwf'.mem_children, hc]
    exact hmem
  refine .of_next (hm'.trans hm.symm) (hname m hmem) hattrs (hid m hmem) fun b k hn hb _ => ⟨b, ?_, ?_⟩
  · rw [Tree.nextSibling?_congr hwf' hwf (hwf'.parent?_of_next hn hm') hc.symm]
    exact hn
  · have hbm : b ∈ t.children q := by
      rw [← hc]
      exact hwf'.mem_children.mpr (hwf'.parent?_of_next hn hm')
    rw [← Tree.loopId?_congr (hname b hbm) (hid b hbm)]
    exact hb

theorem stays_of_level (hwf : t.WellFormed) (hwf' : t'.WellFormed) (h : Level t t' q)
    (hm : t.parent? m = some q) : Stays t t' m :=
  .of_list hwf hwf' hm h.children h.name (h.attrs m (hwf.mem_children.mpr hm)) h.repeatId

theorem stays_of_root (hwf' : t'.WellFormed) (hr : t.parent? m = none) (hr' : t'.parent? m = none)
    (hname : t'.name m = t.name m) (hattrs : (t'.node m).attrs = (t.node m).attrs) : Stays t t' m where
  parent? := hr'.trans hr.symm
  name := hname
  attrs := hattrs
  copied := fun h => by
    obtain ⟨p, hp⟩ := h.exists_parent hwf'
    rw [hr'] at hp
    cases hp

/-- The walk of the document of `root` finds in `t'` what it finds in `t`. -/
structure Undisturbed (t t' : Tree) (root : NodeId) : Prop where
  wellFormed : t'.WellFormed
  parent? : t'.parent? root = none
  name : t'.name root = t.name root
  attrs : (t'.node root).attrs = (t.node root).attrs
  level : ∀ q, Inner t root q → Level t t' q

/-- A change that leaves the document alone. -/
theorem undisturbed_of_around (hwf : t.WellFormed) (ha : Around rs t t') (hr : root ∈ rs) (hroot : IsRoot t root) :
    Undisturbed t t' root where
  wellFormed := ha.wellFormed
  parent? := (ha.isRoot root hroot).parent?
  name := (ha.trunk root hr hroot).name .root
  attrs := (ha.trunk root hr hroot).attrs .root
  level _ hq := Work.level_of_around hwf ha hr hroot hq

/-- Another document is given up. -/
theorem undisturbed_of_release (hwf : t.WellFormed) (hroot : IsRoot t root) (ha : IsRoot t a) (hne : a ≠ root) :
    Undisturbed t (t.release a) root := by
  have hwf' := (hwf.released ha.live).wellFormed
  have hk := (Tree.closed_document hwf hroot.live hroot.parent?).keeps_release hwf ha.live
    (Tree.not_under_root ha.parent? hne)
  have hnode : ∀ m, Under t root m → (t.release a).node m = t.node m := fun m hm => (hk m hm).2
  have hparent : ∀ m, Under t root m → (t.release a).parent? m = t.parent? m := fun m hm =>
    congrArg Node.parent (hnode m hm)
  refine ⟨hwf', (hparent root .self).trans hroot.parent?, congrArg Node.name (hnode root .self),
    congrArg Node.attrs (hnode root .self), fun q hq => ?_⟩
  have hbelow : ∀ c ∈ t.children q, Under t root c := fun c hc =>
    hq.under.trans (Tree.under_of_parent (hwf.mem_children.mp hc))
  refine ⟨congrArg Node.children (hnode q hq.under), fun c hc => congrArg Node.name (hnode c (hbelow c hc)),
    fun c hc => congrArg Node.attrs (hnode c (hbelow c hc)), fun c hc => ?_, ?_⟩
  · exact congrArg (fun x : Node => x.computed.repeatId) (hnode c (hbelow c hc))
  · exact depth_of_parents hwf hwf' hroot.parent? hq fun m hm =>
      hparent m ((Tree.trunk_inner hwf hroot.live hroot.parent?).of_under hm hq).under

/-- Nothing on the trunk of a document becomes a copy unless the walk of the document notices. -/
theorem Undisturbed.stays (h : Undisturbed t t' root) (hwf : t.WellFormed) (hroot : IsRoot t root)
    (hq : Inner t root q) (hm : t.parent? m = some q ∨ Under t m q) : Stays t t' m := by
  rcases hm with hm | hm
  · exact stays_of_level hwf h.wellFormed (h.level q hq) hm
  have hi := (Tree.trunk_inner hwf hroot.live hroot.parent?).of_under hm hq
  cases hi with
  | root => exact stays_of_root h.wellFormed hroot.parent? h.parent? h.name h.attrs
  | step hp hpm _ => exact stays_of_level hwf h.wellFormed (h.level _ hp) hpm

/-- A node that stands for nothing is put behind the last of its siblings. -/
theorem stays_of_marked (hwf : t.WellFormed) (h : Marked t p a t') (hm : t.Live m) : Stays t t' m := by
  have hname : ∀ b, t.Live b → t'.name b = t.name b := fun b hb => Tree.name_eq_of_content (h.content b hb)
  have hid : ∀ b, t.Live b → (t'.computed b).repeatId = (t.computed b).repeatId := fun b hb =>
    congrArg Computed.repeatId (Tree.computed_eq_of_content (h.content b hb))
  cases hq : t.parent? m with
  | none =>
    exact stays_of_root h.wellFormed hq ((h.parent? m hm).trans hq) (hname m hm) (Tree.attrs_eq_of_content (h.content m hm))
  | some q =>
    have hlive : ∀ b ∈ t.children q, t.Live b := fun b hb => (hwf.live_of_parent (hwf.mem_children.mp hb)).1
    by_cases hqp : q = p
    · subst hqp
      refine .of_next (h.parent? m hm) (hname m hm) (Tree.attrs_eq_of_content (h.content m hm)) (hid m hm)
        fun b k hn hb _ => ?_
      have hpb := h.wellFormed.parent?_of_next hn ((h.parent? m hm).trans hq)
      have hbc : b ∈ t.children q := by
        have hbc := h.wellFormed.mem_children.mpr hpb
        rw [h.children] at hbc
        refine (List.mem_append.mp hbc).resolve_right fun ha => ?_
        -- the new node is no loop
        have hnop := Tree.name_of_loopId? hb
        rw [List.mem_singleton.mp ha, Tree.name, h.self] at hnop
        revert hnop
        simp
      obtain ⟨before, after, hs⟩ := hwf.exists_split (hwf.mem_children.mp hbc)
      rw [h.wellFormed.nextSibling?_of_split (x := before) (y := after ++ [a])
        (by rw [h.children, hs]; simp)] at hn
      cases after with
      | nil =>
        cases hn
        exact absurd hm h.fresh
      | cons x after =>
        rw [Tree.loopId?_congr (hname b (hlive b hbc)) (hid b (hlive b hbc))] at hb
        exact ⟨b, by rw [hwf.nextSibling?_of_split hs]; exact hn, hb⟩
    · refine .of_list hwf h.wellFormed hq ?_ (fun b hb => hname b (hlive b hb))
        (Tree.attrs_eq_of_content (h.content m hm)) fun b hb => hid b (hlive b hb)
      unfold Tree.children
      rw [h.node q (hwf.live_of_parent hq).2 hqp]

/-! ## Further runs -/

/-- What is there keeps its name, its attributes and its number when a loop goes on. -/
theorem loop_of_advanced (h : Advanced t p a a' t') (hm : t.Live m) : t'.name m = t.name m
    ∧ (t'.node m).attrs = (t.node m).attrs ∧ (t'.computed m).repeatId = (t.computed m).repeatId := by
  by_cases hma : m = a'
  · subst hma
    rcases h.same with rfl | hnot
    · exact ⟨h.name, h.attrs, h.repeatId⟩
    · exact absurd hm hnot
  · exact ⟨Tree.name_eq_of_content (h.content m hm hma), Tree.attrs_eq_of_content (h.content m hm hma),
      congrArg Computed.repeatId (Tree.computed_eq_of_content (h.content m hm hma))⟩

/-- Behind a further run stands what stood behind the run before. -/
theorem next_of_advanced (hwf : t.WellFormed) (ha : t.parent? a = some p) (h : Advanced t p a a' t') :
    t'.nextSibling? a' = t.nextSibling? a := by
  obtain ⟨before, after, hs⟩ := hwf.exists_split ha
  rcases h.siblings with ⟨rfl, hc, -⟩ | ⟨before', after', hs', hs''⟩
  · exact Tree.nextSibling?_congr hwf h.wellFormed ha hc
  · rw [hwf.nextSibling?_of_split hs', h.wellFormed.nextSibling?_of_split (n := a') (x := before' ++ [a])
      (y := after') (by rw [hs'']; simp)]

/-- A further run of a loop makes a copy of no node that is there. -/
theorem stays_of_advanced (hwf : t.WellFormed) (ha : t.parent? a = some p) (h : Advanced t p a a' t')
    (hm : t.Live m) : Stays t t' m := by
  have hpm := h.parent? m hm
  cases hq : t.parent? m with
  | none => exact stays_of_root h.wellFormed hq (hpm.trans hq) (loop_of_advanced h hm).1 (loop_of_advanced h hm).2.1
  | some q =>
    have hlq := (hwf.live_of_parent hq).2
    have hlive : ∀ b ∈ t.children q, t.Live b := fun b hb => (hwf.live_of_parent (hwf.mem_children.mp hb)).1
    have hlist : t'.children q = t.children q → Stays t t' m := fun hc =>
      .of_list hwf h.wellFormed hq hc (fun b hb => (loop_of_advanced h (hlive b hb)).1)
        (loop_of_advanced h hm).2.1 fun b hb => (loop_of_advanced h (hlive b hb)).2.2
    by_cases hqp : q = p
    · subst hqp
      rcases h.siblings with ⟨-, hc, -⟩ | ⟨before, after, hs, hs'⟩
      · exact hlist hc
      refine .of_next hpm (loop_of_advanced h hm).1 (loop_of_advanced h hm).2.1 (loop_of_advanced h hm).2.2
        fun b k hn hb _ => ?_
      by_cases hba : b = a'
      · -- behind the copy stands what stood behind the loop
        subst hba
        rw [Tree.loopId?_congr h.name h.repeatId] at hb
        exact ⟨a, (next_of_advanced hwf ha h).symm.trans hn, hb⟩
      · have hpb := h.wellFormed.parent?_of_next hn (hpm.trans hq)
        have hbc : b ∈ t.children q := by
          have hbc := h.wellFormed.mem_children.mpr hpb
          rw [hs'] at hbc
          rw [hs]
          simp only [List.mem_append, List.mem_cons] at hbc ⊢
          tauto
        refine ⟨b, ?_, by
          rw [← Tree.loopId?_congr (loop_of_advanced h (hlive b hbc)).1 (loop_of_advanced h (hlive b hbc)).2.2]
          exact hb⟩
        rw [← hn]
        have hold : a' ∉ t.children q ∨ a' = a := by
          rcases h.same with he | hnot
          · exact .inr he
          · exact .inl fun hc => hnot (hlive a' hc)
        rcases hold with hold | rfl
        · have hne : m ≠ a' := fun he => hold (he ▸ hwf.mem_children.mpr hq)
          rw [hs] at hbc
          rcases List.mem_append.mp hbc with hbc | hbc
          · obtain ⟨x, y, rfl⟩ := List.append_of_mem hbc
            rw [hwf.nextSibling?_of_split (x := x) (y := y ++ a :: after) (by rw [hs]; simp),
              h.wellFormed.nextSibling?_of_split (x := x) (y := y ++ a :: a' :: after)
                (by rw [hs']; simp)]
            cases y <;> rfl
          rcases List.mem_cons.mp hbc with rfl | hbc
          · rw [h.wellFormed.nextSibling?_of_split hs'] at hn
            cases hn
            exact absurd rfl hne
          · obtain ⟨x, y, rfl⟩ := List.append_of_mem hbc
            rw [hwf.nextSibling?_of_split (x := before ++ a :: x) (y := y) (by rw [hs]; simp),
              h.wellFormed.nextSibling?_of_split (x := before ++ a :: a' :: x) (y := y)
                (by rw [hs']; simp)]
        · -- one node cannot be listed twice
          have hnd := h.wellFormed.children_nodup q
          rw [hs'] at hnd
          exact absurd List.mem_cons_self (List.nodup_cons.mp (List.nodup_append.mp hnd).2.1).1
    · refine hlist ?_
      by_cases hqa : q = a'
      · subst hqa
        rcases h.same with rfl | hnot
        · exact h.body hlq
        · exact absurd hlq hnot
      · unfold Tree.children
        rw [h.node q hlq hqa hqp]

/-! ## Entering -/

/-- The siblings of a loop that is entered: the copies are dropped, and what then follows has another number. -/
theorem siblings_of_entered (hwf : t.WellFormed) (hp : t.parent? n = some p) (h : Entered t n p t') :
    ∃ before after, t.children p = before ++ n :: (copies t n ++ after) ∧ t'.children p = before ++ n :: after
      ∧ ∀ c k, after.head? = some c → t.name n = "repeat" → t.loopId? n = some k → t.loopId? c ≠ some k := by
  obtain ⟨before, behind, hs⟩ := hwf.exists_split hp
  have hkeep : ∀ {cs : List NodeId}, (∀ c ∈ cs, c ∉ copies t n) →
      cs.filter (fun c => !(copies t n).contains c) = cs := fun h => List.filter_eq_self.mpr fun c hc => by
    rw [Bool.not_eq_true', ← Bool.not_eq_true, List.contains_iff_mem]
    exact h c hc
  have hdrop : (copies t n).filter (fun c => !(copies t n).contains c) = [] := by
    rw [List.filter_eq_nil_iff]
    intro c hc
    rw [Bool.not_eq_true', ← Bool.not_eq_true, not_not, List.contains_iff_mem]
    exact hc
  -- the copies are what comes first behind the loop
  have hsplit : ∃ after, behind = copies t n ++ after
      ∧ ∀ c k, after.head? = some c → t.name n = "repeat" → t.loopId? n = some k → t.loopId? c ≠ some k := by
    unfold copies
    cases hid : (t.computed n).repeatId with
    | none =>
      refine ⟨behind, rfl, fun c k _ hname hk => ?_⟩
      unfold Tree.loopId? at hk
      rw [if_pos hname, hid] at hk
      cases hk
    | some k =>
      dsimp only
      rw [hwf.followingSiblings_of_split hs]
      refine ⟨_, (List.takeWhile_append_dropWhile).symm, fun c k' hc hname hk hck => ?_⟩
      unfold Tree.loopId? at hk
      rw [if_pos hname, hid] at hk
      cases hk
      have hnot := List.head?_dropWhile_not (fun n => t.name n == "repeat" && (t.computed n).repeatId == some k) behind
      rw [hc] at hnot
      have hcname := Tree.name_of_loopId? hck
      unfold Tree.loopId? at hck
      rw [if_pos hcname] at hck
      simp [hcname, hck] at hnot
  obtain ⟨after, rfl, hafter⟩ := hsplit
  refine ⟨before, after, hs, ?_, hafter⟩
  have hnd := hwf.children_nodup p
  rw [hs] at hnd
  obtain ⟨-, hnd', hdisj⟩ := List.nodup_append.mp hnd
  rw [h.siblings, hs, List.filter_append, List.filter_cons_of_pos (by
      rw [Bool.not_eq_true', ← Bool.not_eq_true, List.contains_iff_mem]
      exact fun hc => (Loop.parent?_of_mem_copies hwf hp hc).2 rfl), List.filter_append, hdrop, List.nil_append,
    hkeep fun c hc hcc => hdisj c hc c (List.mem_cons_of_mem _ (List.mem_append_left _ hcc)) rfl,
    hkeep fun c hc hcc => (List.nodup_append.mp (List.nodup_cons.mp hnd').2).2.2 c hcc c hc rfl]

/-- What lives when a loop has been entered keeps its name, its attributes and its number. -/
theorem loop_of_entered (h : Entered t n p t') (hm : t'.Live m) : t'.name m = t.name m
    ∧ (t'.node m).attrs = (t.node m).attrs ∧ (t'.computed m).repeatId = (t.computed m).repeatId := by
  by_cases hmn : m = n
  · subst hmn
    unfold Tree.name Tree.computed
    rw [h.self]
    exact ⟨rfl, rfl, rfl⟩
  · exact ⟨Tree.name_eq_of_content (h.content m hm hmn), Tree.attrs_eq_of_content (h.content m hm hmn),
      congrArg Computed.repeatId (Tree.computed_eq_of_content (h.content m hm hmn))⟩

/-- Behind a loop that has been entered there is no copy. -/
theorem not_copied_behind (hwf : t.WellFormed) (hp : t.parent? n = some p) (hname : t.name n = "repeat")
    (h : Entered t n p t') (hn : t'.nextSibling? n = some c) : ¬ Copied t' c := by
  obtain ⟨before, after, -, hs', hafter⟩ := siblings_of_entered hwf hp h
  rintro ⟨b, k, hb, hbk, hck⟩
  rw [h.wellFormed.nextSibling?_inj hb hn] at hbk
  have hpn' : t'.parent? n = some p := h.wellFormed.mem_children.mp (by rw [hs']; simp)
  have hln := (h.wellFormed.live_of_parent hpn').1
  have hlc := (h.wellFormed.live_of_parent (h.wellFormed.parent?_of_nextSibling? hpn' hn)).1
  rw [Tree.loopId?_congr (loop_of_entered h hln).1 (loop_of_entered h hln).2.2] at hbk
  rw [Tree.loopId?_congr (loop_of_entered h hlc).1 (loop_of_entered h hlc).2.2] at hck
  rw [h.wellFormed.nextSibling?_of_split hs'] at hn
  exact hafter c k hn hname hbk hck

/-- Entering a loop makes a copy of no node. -/
theorem stays_of_entered (hwf : t.WellFormed) (hp : t.parent? n = some p) (hname : t.name n = "repeat")
    (h : Entered t n p t') (hm : t'.Live m) : Stays t t' m := by
  have hpm := h.parent? m hm
  cases hq : t'.parent? m with
  | none =>
    exact stays_of_root h.wellFormed (hpm.symm.trans hq) hq (loop_of_entered h hm).1 (loop_of_entered h hm).2.1
  | some q =>
    have hq₀ := hpm.symm.trans hq
    have hlq := (h.wellFormed.live_of_parent hq).2
    have hlive : ∀ b ∈ t'.children q, t'.Live b := fun b hb =>
      (h.wellFormed.live_of_parent (h.wellFormed.mem_children.mp hb)).1
    by_cases hqp : q = p
    · subst hqp
      obtain ⟨before, after, hs, hs', -⟩ := siblings_of_entered hwf hp h
      refine .of_next hpm (loop_of_entered h hm).1 (loop_of_entered h hm).2.1 (loop_of_entered h hm).2.2
        fun b k hn hb hmk => ?_
      have hpb := h.wellFormed.parent?_of_next hn hq
      have hbc := h.wellFormed.mem_children.mpr hpb
      have hlb := hlive b hbc
      have hb₀ := hb
      rw [Tree.loopId?_congr (loop_of_entered h hlb).1 (loop_of_entered h hlb).2.2] at hb
      by_cases hbn : b = n
      · subst hbn
        refine absurd ⟨b, k, hn, hb₀, ?_⟩ (not_copied_behind hwf hp hname h hn)
        rw [Tree.loopId?_congr (loop_of_entered h hm).1 (loop_of_entered h hm).2.2]
        exact hmk
      refine ⟨b, ?_, hb⟩
      rw [← hn]
      rw [hs'] at hbc
      rcases List.mem_append.mp hbc with hbc | hbc
      · obtain ⟨x, y, rfl⟩ := List.append_of_mem hbc
        rw [hwf.nextSibling?_of_split (x := x) (y := y ++ n :: (copies t n ++ after)) (by rw [hs]; simp),
          h.wellFormed.nextSibling?_of_split (x := x) (y := y ++ n :: after) (by rw [hs']; simp)]
        cases y <;> rfl
      · obtain ⟨x, y, rfl⟩ := List.append_of_mem ((List.mem_cons.mp hbc).resolve_left hbn)
        rw [hwf.nextSibling?_of_split (x := before ++ n :: (copies t n ++ x)) (y := y) (by rw [hs]; simp),
          h.wellFormed.nextSibling?_of_split (x := before ++ n :: x) (y := y) (by rw [hs']; simp)]
    · have hc : t'.children q = t.children q := by
        unfold Tree.children
        by_cases hqn : q = n
        · rw [hqn, h.self]
        · rw [h.node q hlq hqn hqp]
      exact .of_list hwf h.wellFormed hq₀ hc (fun b hb => (loop_of_entered h (hlive b (hc ▸ hb))).1)
        (loop_of_entered h hm).2.1 fun b hb => (loop_of_entered h (hlive b (hc ▸ hb))).2.2

/-! ## Where a walk goes -/

/-- The nodes that the walk of a document keeps: those of the positions on its scan, those of its run, and those
    of its loops. -/
def nodesOf (f : Frame) : List NodeId :=
  f.scan.map Position.node ++ (f.run.elim [] fun r => r.first :: r.next.toList) ++ f.loops.map Loop.anchor

/-- The nodes that are kept for a walk below `p` stand strictly above. -/
theorem Standing.outside (hwf : t.WellFormed) (h : Standing t root p key loops scan)
    (hn : n ∈ scan.map Position.node ++ loops.map Loop.anchor) :
    ∃ q, t.parent? n = some q ∧ Inner t root q ∧ Under t q p ∧ q ≠ p := by
  have hstep : ∀ {p q}, t.parent? p = some q → (∃ q', t.parent? n = some q' ∧ Inner t root q' ∧ Under t q' q
      ∧ q' ≠ q) → ∃ q', t.parent? n = some q' ∧ Inner t root q' ∧ Under t q' p ∧ q' ≠ p := by
    rintro p q hp ⟨q', hq', hi, hu, -⟩
    refine ⟨q', hq', hi, hu.trans (Tree.under_of_parent hp), ?_⟩
    rintro rfl
    exact hwf.not_under_parent hp hu
  induction h with
  | top => simp at hn
  | @group p q next key inner loops scan outer hp _ _ hb ih =>
    rw [List.map_cons, List.cons_append] at hn
    rcases List.mem_cons.mp hn with rfl | hn
    · exact ⟨q, hb, outer.inner, Tree.under_of_parent hp, hwf.parent_ne hp⟩
    · exact hstep hp (ih hn)
  | @loop p q key inner l loops scan outer hp _ _ ha _ _ _ _ ih =>
    rw [List.map_cons] at hn
    rcases List.mem_append.mp hn with hn | hn
    · exact hstep hp (ih (List.mem_append_left _ hn))
    rcases List.mem_cons.mp hn with rfl | hn
    · rw [ha]
      exact ⟨q, hp, outer.inner, Tree.under_of_parent hp, hwf.parent_ne hp⟩
    · exact hstep hp (ih (List.mem_append_right _ hn))

/-- The nodes that the walk of a document keeps are children of its trunk. -/
theorem Placed.mem_nodesOf (hwf : t.WellFormed) (h : Placed t root f) (hn : n ∈ nodesOf f) :
    ∃ q, t.parent? n = some q ∧ Inner t root q := by
  unfold Placed at h
  unfold nodesOf at hn
  cases hrun : f.run with
  | some r =>
    simp only [hrun] at h hn
    obtain ⟨p, hr⟩ := h
    have hout : n ∈ f.scan.map Position.node ++ f.loops.map Loop.anchor →
        ∃ q, t.parent? n = some q ∧ Inner t root q := fun hm => by
      obtain ⟨q, hq, hi, -⟩ := hr.standing.outside hwf hm
      exact ⟨q, hq, hi⟩
    rcases List.mem_append.mp hn with hn | hn
    · rcases List.mem_append.mp hn with hn | hn
      · exact hout (List.mem_append_left _ hn)
      rcases List.mem_cons.mp hn with rfl | hn
      · exact ⟨p, hr.first, hr.standing.inner⟩
      · exact ⟨p, (hr.next n (Option.mem_toList.mp hn)).1, hr.standing.inner⟩
    · exact hout (List.mem_append_right _ hn)
  | none =>
    simp only [hrun, Option.elim_none, List.append_nil] at h hn
    generalize f.loops = loops at h hn
    generalize f.scan = scan at h hn
    cases h with
    | ended => simp at hn
    | @«at» q loops pos scan hs hp =>
      rw [List.map_cons, List.cons_append] at hn
      rcases List.mem_cons.mp hn with rfl | hn
      · exact ⟨q, hp, hs.inner⟩
      · obtain ⟨q', hq', hi, -⟩ := hs.outside hwf hn
        exact ⟨q', hq', hi⟩

/-- A walk is not at a copy, nor does it come to one from where it is: only the loop that made a copy leads to
    it. -/
structure Tidy (t : Tree) (f : Frame) : Prop where
  scan : ∀ pos ∈ f.scan, ¬ Copied t pos.node
  next : ∀ r n, f.run = some r → r.next = some n → ¬ Copied t n
  first : ∀ l ∈ f.loops, l.count < 2 → ¬ Copied t l.anchor
  behind : ∀ l ∈ f.loops, ∀ c, t.nextSibling? l.anchor = some c → ¬ Copied t c

/-- What is kept for a walk is in order as long as the lists of siblings are kept that it stands in. -/
theorem Tidy.of_levels (hwf : t.WellFormed) (hwf' : t'.WellFormed) (h : Tidy t f)
    (hlist : ∀ n ∈ nodesOf f, ∃ q, t.parent? n = some q ∧ Level t t' q) : Tidy t' f := by
  have hstay : ∀ n ∈ nodesOf f, Stays t t' n := fun n hn => by
    obtain ⟨q, hq, hl⟩ := hlist n hn
    exact stays_of_level hwf hwf' hl hq
  have hloop : ∀ l ∈ f.loops, l.anchor ∈ nodesOf f := fun l hl =>
    List.mem_append_right _ (List.mem_map_of_mem hl)
  refine ⟨fun pos hpos hc => ?_, fun r n hr hn hc => ?_, fun l hl hc hcop => ?_, fun l hl c hn hc => ?_⟩
  · exact h.scan pos hpos ((hstay _ (List.mem_append_left _ (List.mem_append_left _
      (List.mem_map_of_mem hpos)))).copied hc)
  · refine h.next r n hr hn ((hstay n ?_).copied hc)
    refine List.mem_append_left _ (List.mem_append_right _ ?_)
    rw [hr]
    exact List.mem_cons_of_mem _ (Option.mem_toList.mpr hn)
  · exact h.first l hl hc ((hstay _ (hloop l hl)).copied hcop)
  · obtain ⟨q, hq, hlevel⟩ := hlist _ (hloop l hl)
    rw [Tree.nextSibling?_congr hwf hwf' hq hlevel.children] at hn
    exact h.behind l hl c hn ((stays_of_level hwf hwf' hlevel (hwf.parent?_of_nextSibling? hq hn)).copied hc)

/-- The walk of another document is left alone. -/
theorem Tidy.of_undisturbed (hwf : t.WellFormed) (hu : Undisturbed t t' root) (hp : Placed t root f)
    (h : Tidy t f) : Tidy t' f := by
  refine h.of_levels hwf hu.wellFormed fun n hn => ?_
  obtain ⟨q, hq, hi⟩ := hp.mem_nodesOf hwf hn
  exact ⟨q, hq, hu.level q hi⟩

/-- A change among the children of `p` does not matter for what is kept for a walk below `p`. -/
theorem Tidy.of_standing (hwf : t.WellFormed) (hwf' : t'.WellFormed) (h : Tidy t f) (hf : f.run = none)
    (hs : Standing t root p key f.loops f.scan) (hlevel : ∀ q, Under t q p → q ≠ p → Level t t' q) :
    Tidy t' f := by
  refine h.of_levels hwf hwf' fun n hn => ?_
  unfold nodesOf at hn
  rw [hf, Option.elim_none, List.append_nil] at hn
  obtain ⟨q, hq, -, hu, hne⟩ := hs.outside hwf hn
  exact ⟨q, hq, hlevel q hu hne⟩

/-- The run that is taken up is in order. -/
theorem Tidy.takeRun (h : Tidy t f) (ht : takeRun f = some (r, g)) :
    Tidy t g ∧ ∀ n, r.next = some n → ¬ Copied t n := by
  rcases takeRun_eq_some ht with ⟨hrun, rfl⟩ | ⟨pos, scan, hrun, hscan, rfl, rfl⟩
  · exact ⟨⟨h.scan, fun _ _ hr => (nomatch hr), h.first, h.behind⟩, fun n hn => h.next r n hrun hn⟩
  · refine ⟨⟨fun q hq => h.scan q (by rw [hscan]; exact List.mem_cons_of_mem _ hq), h.next, h.first, h.behind⟩,
      fun n hn => ?_⟩
    cases hn
    exact h.scan pos (by rw [hscan]; exact List.mem_cons_self)

end Walk

end Stencil
