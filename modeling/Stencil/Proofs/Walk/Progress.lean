/-
  Rounds get a walk ahead.

  A round that takes nothing from what is left to read lowers the work of the innermost document: a visit
  takes a node off it, and what the visit adds weighs less than that node; the end of a run takes a mark off
  it, and the loops that are asked have one run less to do, or none any more.

  There is one lemma for each kind of visit (`Visiting.eased_…`), and one for the end of a run
  (`RunEnded.askedLess`).  `Stencil.Proofs.Walk.Ends` makes rounds and walks of them.
-/
import Stencil.Proofs.Walk.Work

set_option autoImplicit false

namespace Stencil.Walk

open Stencil.Tree (Under Inner KeepsShape Added HoldsAll Refreshed depth_of_parent)
open Loop (Entered copies SameFeed)
open Loop.Turn (Continues Ends Advanced)
open Multiset (IsDershowitzMannaLT)
open Work (Level weight runWeight past ahead ofScan ofLoops ofRun ofFrame)

variable {t t' : Tree} {rs roots parents : List NodeId} {root p n q a a' m : NodeId} {r : Run} {f g : Frame}
  {more : List Frame} {w w₁ w' : Walk} {o : Options} {key : String} {loops outer : List Loop}
  {l : Loop} {scan : List Position} {u : Unit} {k : Nat} {s : Supply} {even : Prop}

/-! ## Lists that are kept -/

theorem depth_of_parents (hwf : t.WellFormed) (hwf' : t'.WellFormed) (hr : t.parent? root = none)
    (hq : Inner t root q) (hp : ∀ m, Under t m q → t'.parent? m = t.parent? m) : t'.depth q = t.depth q := by
  induction hq with
  | root =>
    unfold Tree.depth
    rw [Tree.ancestors_of_root hr, Tree.ancestors_of_root ((hp root .self).trans hr)]
  | @step p n hi hpn hn ih =>
    rw [depth_of_parent hwf hpn, depth_of_parent hwf' ((hp n .self).trans hpn),
      ih fun m hm => hp m (hm.trans (Tree.under_of_parent hpn))]

/-- A new child of one node does not matter to the others. -/
theorem level_of_added {cs : List NodeId} {new : Node} {id : NodeId} (hwf : t.WellFormed)
    (hroot : IsRoot t root) (h : Added t p cs new id t') (hq : Inner t root q) (hne : q ≠ p) :
    Level t t' q := by
  have htrunk := Tree.trunk_inner hwf hroot.live hroot.parent?
  have hcontent : ∀ c ∈ t.children q, t'.content c = t.content c := fun c hc =>
    h.content c (hwf.live_of_parent (hwf.mem_children.mp hc)).1
  refine ⟨?_, fun c hc => Tree.name_eq_of_content (hcontent c hc),
    fun c hc => Tree.attrs_eq_of_content (hcontent c hc),
    fun c hc => congrArg Computed.repeatId (Tree.computed_eq_of_content (hcontent c hc)), ?_⟩
  · unfold Tree.children
    rw [h.node q (htrunk.live q hq) hne]
  · exact depth_of_parents hwf h.wellFormed hroot.parent? hq fun m hm =>
      h.parent? m (hwf.live_of_under' (htrunk.live q hq) hm)

/-- The trunk stays where parents and names do. -/
theorem inner_of_live (hwf : t.WellFormed) (hp : ∀ n, t.Live n → t'.parent? n = t.parent? n)
    (hn : ∀ n, t.Live n → t'.name n = t.name n) (hq : Inner t root q) : Inner t' root q := by
  induction hq with
  | root => exact .root
  | step _ hpn hname ih =>
    have hl := (hwf.live_of_parent hpn).1
    exact .step ih ((hp _ hl).trans hpn) (by rw [hn _ hl]; exact hname)

/-- A node that stands for nothing is no part of a trunk. -/
theorem inner_of_marked (hwf : t.WellFormed) (hl : t.Live root) (h : Marked t p m t')
    (hq : Inner t' root q) : Inner t root q := by
  induction hq with
  | root => exact .root
  | @step p' c _ hp hn ih =>
    have hcm : c ≠ m := by
      rintro rfl
      have hname : t'.name c = "nop" := by
        unfold Tree.name
        rw [h.self]
      rw [hname] at hn
      exact hn.elim (by decide) (by decide)
    have hmem : c ∈ t.children p' := by
      have hc := h.wellFormed.mem_children.mpr hp
      by_cases hpp : p' = p
      · subst hpp
        rw [h.children] at hc
        exact (List.mem_append.mp hc).resolve_right fun hm => hcm (List.mem_singleton.mp hm)
      · rw [Tree.children, h.node p' (hwf.live_of_under hl ih.under) hpp] at hc
        exact hc
    have hlc := (hwf.live_of_parent (hwf.mem_children.mp hmem)).1
    refine .step ih ((h.parent? c hlc).symm.trans hp) ?_
    rw [← Tree.name_eq_of_content (h.content c hlc)]
    exact hn

theorem bounded_of_marked (hwf : t.WellFormed) (hroot : IsRoot t root) (h : Marked t p m t')
    (hb : Bounded t root k) : Bounded t' root k := by
  intro q hq
  have hi := inner_of_marked hwf hroot.live h hq
  have hl := hwf.live_of_under hroot.live hi.under
  rw [depth_of_parents hwf h.wellFormed hroot.parent? hi fun m hm => h.parent? m (hwf.live_of_under' hl hm)]
  exact hb q hi

/-- Strictly above the parent of a loop, a further run of the loop does not matter. -/
theorem level_of_advanced (hwf : t.WellFormed) (hroot : IsRoot t root) (hi : Inner t root p)
    (ha : t.parent? a = some p) (h : Advanced t p a a' t') (hu : Under t q p) (hne : q ≠ p) : Level t t' q := by
  have htrunk := Tree.trunk_inner hwf hroot.live hroot.parent?
  have hq := htrunk.of_under hu hi
  have hsame : ∀ c, t.Live c → t.parent? c ≠ some p → c ≠ a' := by
    rintro c hl hc rfl
    rcases h.same with rfl | hnot
    · exact hc ha
    · exact hnot hl
  have hcontent : ∀ c ∈ t.children q, t'.content c = t.content c := by
    intro c hc
    have hpc := hwf.mem_children.mp hc
    have hl := (hwf.live_of_parent hpc).1
    refine h.content c hl (hsame c hl fun hp => hne ?_)
    rw [hpc] at hp
    exact Option.some.inj hp
  refine ⟨?_, fun c hc => Tree.name_eq_of_content (hcontent c hc),
    fun c hc => Tree.attrs_eq_of_content (hcontent c hc),
    fun c hc => congrArg Computed.repeatId (Tree.computed_eq_of_content (hcontent c hc)), ?_⟩
  · unfold Tree.children
    rw [h.node q (htrunk.live q hq) (hsame q (htrunk.live q hq) fun hp => ?_) hne]
    exact hwf.not_under_parent hp hu
  · exact depth_of_parents hwf h.wellFormed hroot.parent? hq fun m hm =>
      h.parent? m (hwf.live_of_under' (htrunk.live q hq) hm)

/-- A node stands below a copy of the loop `n` only if it is a copy or its parent stands below one. -/
theorem live_of_entered (hwf : t.WellFormed) (hpn : t.parent? n = some p) (he : Entered t n p t')
    (hp : t.parent? m = some q) (hu : Under t q p) (hne : q ≠ p) : t'.Live m := by
  refine (he.live m).mpr ⟨(hwf.live_of_parent hp).1, fun c hc hcm => ?_⟩
  have hpc := (Loop.parent?_of_mem_copies hwf hpn hc).1
  by_cases hmc : m = c
  · subst hmc
    rw [hpc] at hp
    exact hne (Option.some.inj hp).symm
  · exact hwf.not_under_parent hpc ((hcm.of_parent hp hmc).trans hu)

/-- What lives when a loop has been entered has the parent that it had; on the trunk nothing is new. -/
theorem inner_of_entered (he : Entered t n p t')
    (hq : Inner t' root q) : Inner t root q := by
  induction hq with
  | root => exact .root
  | @step p' m _ hp hn ih =>
    have hl := (he.wellFormed.live_of_parent hp).1
    refine .step ih ((he.parent? m hl).symm.trans hp) ?_
    by_cases hmn : m = n
    · subst hmn
      rw [← (anchor_of_entered he).1]
      exact hn
    · rw [← Tree.name_eq_of_content (he.content m hl hmn)]
      exact hn

/-- What stands above a loop stays when the loop is entered. -/
theorem live_above (hwf : t.WellFormed) (hroot : IsRoot t root) (hi : Inner t root p)
    (hpn : t.parent? n = some p) (he : Entered t n p t') (hu : Under t q p) : t'.Live q :=
  (he.live q).mpr ⟨hwf.live_of_under' (hwf.live_of_under hroot.live hi.under) hu,
    fun _ hc => not_under_copy hwf hpn hc hu⟩

theorem depth_of_entered (hwf : t.WellFormed) (hroot : IsRoot t root) (hi : Inner t root p)
    (hpn : t.parent? n = some p) (he : Entered t n p t') (hu : Under t q p) : t'.depth q = t.depth q :=
  depth_of_parents hwf he.wellFormed hroot.parent?
    ((Tree.trunk_inner hwf hroot.live hroot.parent?).of_under hu hi)
    fun m hm => he.parent? m (live_above hwf hroot hi hpn he (hm.trans hu))

theorem level_of_entered (hwf : t.WellFormed) (hroot : IsRoot t root) (hi : Inner t root p)
    (hpn : t.parent? n = some p) (he : Entered t n p t') (hu : Under t q p) (hne : q ≠ p) : Level t t' q := by
  have hcontent : ∀ c ∈ t.children q, t'.content c = t.content c := by
    intro c hc
    have hpc := hwf.mem_children.mp hc
    refine he.content c (live_of_entered hwf hpn he hpc hu hne) ?_
    rintro rfl
    rw [hpn] at hpc
    exact hne (Option.some.inj hpc).symm
  refine ⟨?_, fun c hc => Tree.name_eq_of_content (hcontent c hc),
    fun c hc => Tree.attrs_eq_of_content (hcontent c hc),
    fun c hc => congrArg Computed.repeatId (Tree.computed_eq_of_content (hcontent c hc)),
    depth_of_entered hwf hroot hi hpn he hu⟩
  unfold Tree.children
  rw [he.node q (live_above hwf hroot hi hpn he hu) ?_ hne]
  rintro rfl
  exact hwf.not_under_parent hpn hu

theorem bounded_of_entered (hwf : t.WellFormed) (hroot : IsRoot t' root) (he : Entered t n p t')
    (hb : Bounded t root k) : Bounded t' root k := by
  intro q hq
  rw [← depth_of_parents he.wellFormed hwf hroot.parent? hq fun m hm => ?_]
  · exact hb q (inner_of_entered he hq)
  · have hl := (Tree.trunk_inner he.wellFormed hroot.live hroot.parent?).live q hq
    exact (he.parent? m (he.wellFormed.live_of_under' hl hm)).symm

/-- Of the siblings behind a loop that is entered, its copies are dropped. -/
theorem past_of_entered (hwf : t.WellFormed) (hroot : IsRoot t root) (hi : Inner t root p)
    (hpn : t.parent? n = some p) (he : Entered t n p t') : past t' k n ≤ past t k n := by
  obtain ⟨before, after, hs⟩ := hwf.exists_split hpn
  have hkeep : (!(copies t n).contains n) = true := by
    rw [Bool.not_eq_true', ← Bool.not_eq_true, List.contains_iff_mem]
    exact fun hc => (Loop.parent?_of_mem_copies hwf hpn hc).2 rfl
  have hs' := he.siblings
  rw [hs, List.filter_append, List.filter_cons_of_pos (p := fun c => !(copies t n).contains c) hkeep] at hs'
  have hweight : ∀ c ∈ after.filter fun c => !(copies t n).contains c, weight t' k c = weight t k c := by
    intro c hc
    have hpc' : t'.parent? c = some p := he.wellFormed.mem_children.mp (by
      rw [hs']
      exact List.mem_append_right _ (List.mem_cons_of_mem _ hc))
    have hl := (he.wellFormed.live_of_parent hpc').1
    have hpc := (he.parent? c hl).symm.trans hpc'
    have hcn : c ≠ n := by
      rintro rfl
      have hnd := hwf.children_nodup p
      rw [hs] at hnd
      exact (List.nodup_cons.mp (List.nodup_append.mp hnd).2.1).1 (List.mem_filter.mp hc).1
    unfold weight
    rw [Tree.name_eq_of_content (he.content c hl hcn), depth_of_parent hwf hpc,
      depth_of_parent he.wellFormed hpc', depth_of_entered hwf hroot hi hpn he .self]
  unfold past
  rw [he.wellFormed.followingSiblings_of_split hs', hwf.followingSiblings_of_split hs, List.map_congr_left hweight]
  exact Multiset.cons_le_cons 0 (Multiset.coe_le.mpr (List.filter_sublist.map _).subperm)

/-! ## Copies -/

theorem exists_of_holdsAll : ∀ {es : List Element} {is js : List NodeId} {j : NodeId},
    HoldsAll t is es → HoldsAll t' js es → j ∈ js → ∃ i ∈ is, ∃ e, Tree.Holds t i e ∧ Tree.Holds t' j e
  | [], _, [], _, _, _, hj => by cases hj
  | [], _, _ :: _, _, _, h', _ => by rw [HoldsAll] at h'; exact h'.elim
  | _ :: _, [], _, _, h, _, _ => by rw [HoldsAll] at h; exact h.elim
  | _ :: _, _ :: _, [], _, _, h', _ => by rw [HoldsAll] at h'; exact h'.elim
  | e :: _, i :: _, j :: _, _, h, h', hj => by
    rw [HoldsAll] at h h'
    rcases List.mem_cons.mp hj with rfl | hj
    · exact ⟨i, List.mem_cons_self, e, h.1, h'.1⟩
    · obtain ⟨i, hi, e, he⟩ := exists_of_holdsAll h.2 h'.2 hj
      exact ⟨i, List.mem_cons_of_mem _ hi, e, he⟩

/-- The node `n` comes from `m`: it is that node, which was there before, or its children copy those of `m`. -/
def ComesFrom (t t' : Tree) (m n : NodeId) : Prop :=
  m = n ∧ t.Live n ∨ ∃ es, HoldsAll t (t.children m) es ∧ HoldsAll t' (t'.children n) es

/-- When one more run of a loop has begun, a child of a node comes from a child of what the node comes from. -/
theorem comesFrom_child (hwf : t.WellFormed) (ha : t.parent? a = some p) (h : Advanced t p a a' t')
    (hq : ComesFrom t t' m q) (hp : t'.parent? n = some q) :
    ∃ i, t.parent? i = some m ∧ ComesFrom t t' i n ∧ t'.name n = t.name i
      ∧ (t'.node n).attrs = (t.node i).attrs := by
  rcases hq with ⟨rfl, hlq⟩ | ⟨es, hes, hes'⟩
  · by_cases hln : t.Live n
    · have hpn : t.parent? n = some m := (h.parent? n hln).symm.trans hp
      by_cases hna : n = a'
      · subst hna
        rcases h.same with rfl | hnot
        · exact ⟨n, hpn, .inl ⟨rfl, hln⟩, h.name, h.attrs⟩
        · exact absurd hln hnot
      · have hc := h.content n hln hna
        exact ⟨n, hpn, .inl ⟨rfl, hln⟩, Tree.name_eq_of_content hc, Tree.attrs_eq_of_content hc⟩
    · -- a new node below one that is not new is the copy itself
      obtain ⟨hla, hu⟩ := h.new n (h.wellFormed.live_of_parent hp).1 hln
      have hna : n = a' := by
        by_contra hne
        have huq := hu.of_parent hp hne
        rw [Tree.under_congr fun m hm => h.parent? m (hwf.live_of_under' hlq hm)] at huq
        exact hla (hwf.live_of_under' hlq huq)
      subst hna
      rw [h.parent] at hp
      cases hp
      exact ⟨a, ha, .inr (h.copy hln), h.name, h.attrs⟩
  · obtain ⟨i, hmi, e, he, he'⟩ := exists_of_holdsAll hes hes' (h.wellFormed.mem_children.mpr hp)
    have hcontent : t'.content n = t.content i := he'.content.trans he.content.symm
    exact ⟨i, hwf.mem_children.mp hmi, .inr ⟨_, he.children, he'.children⟩,
      congrArg (fun x => x.name) hcontent, congrArg (fun x => x.attrs) hcontent⟩

/-- Copies of a loop stand as deep as the loop. -/
theorem bounded_of_advanced (hwf : t.WellFormed) (hroot : IsRoot t root) (ha : t.parent? a = some p)
    (h : Advanced t p a a' t') (hb : Bounded t root k) : Bounded t' root k := by
  -- each node of the trunk stands as deep as the one that it comes from
  have hkey : ∀ q, Inner t' root q → ∃ m, Inner t root m ∧ t'.depth q = t.depth m ∧ ComesFrom t t' m q := by
    intro q hq
    induction hq with
    | root =>
      refine ⟨root, .root, ?_, .inl ⟨rfl, hroot.live⟩⟩
      unfold Tree.depth
      rw [Tree.ancestors_of_root ((h.parent? root hroot.live).trans hroot.parent?),
        Tree.ancestors_of_root hroot.parent?]
    | @step q n _ hpn hn ih =>
      obtain ⟨m, hm, hd, hc⟩ := ih
      obtain ⟨i, hpi, hci, hname, -⟩ := comesFrom_child hwf ha h hc hpn
      refine ⟨i, .step hm hpi (hname ▸ hn), ?_, hci⟩
      rw [depth_of_parent h.wellFormed hpn, depth_of_parent hwf hpi, hd]
  intro q hq
  obtain ⟨m, hm, hd, -⟩ := hkey q hq
  rw [hd]
  exact hb m hm

/-- Behind a further run stands what stood behind the run before. -/
theorem past_of_advanced (hwf : t.WellFormed) (hroot : IsRoot t root) (hi : Inner t root p)
    (ha : t.parent? a = some p) (h : Advanced t p a a' t') : past t' k a' = past t k a := by
  have hfollow : t'.followingSiblings a' = t.followingSiblings a := by
    obtain ⟨before, after, hs⟩ := hwf.exists_split ha
    rcases h.siblings with ⟨rfl, hc, -⟩ | ⟨before', after', hs', hs''⟩
    · rw [h.wellFormed.followingSiblings_of_split (hc.trans hs), hwf.followingSiblings_of_split hs]
    · rw [hwf.followingSiblings_of_split hs', ← h.wellFormed.followingSiblings_of_split (n := a')
        (x := before' ++ [a]) (y := after') (by rw [hs'']; simp)]
  have hweight : ∀ c ∈ t.followingSiblings a, weight t' k c = weight t k c := by
    intro c hc
    obtain ⟨p', hp', hpc, hca⟩ := hwf.mem_followingSiblings hc
    rw [ha] at hp'
    cases hp'
    have hl := (hwf.live_of_parent hpc).1
    have hca' : c ≠ a' := by
      rintro rfl
      exact h.same.elim hca fun hnot => hnot hl
    have hlp := (hwf.live_of_parent hpc).2
    unfold weight
    rw [Tree.name_eq_of_content (h.content c hl hca'), depth_of_parent hwf hpc,
      depth_of_parent h.wellFormed ((h.parent? c hl).trans hpc),
      depth_of_parents hwf h.wellFormed hroot.parent? hi fun m hm => h.parent? m (hwf.live_of_under' hlp hm)]
  unfold past
  rw [hfollow, List.map_congr_left hweight]

/-! ## Visits -/

/-- The work of a document behind a visit to a node of a run. -/
def landed (t : Tree) (s : Supply) (k : Nat) (r : Run) (n : NodeId) (g : Frame) : Multiset Nat :=
  (if g.scan.length = r.base then past t k n else 0) + ofFrame t s k g

theorem ofRun_of_next (hn : r.next = some n) : ofRun t k r = weight t k n ::ₘ past t k n := by
  unfold ofRun
  rw [hn]
  rfl

/-- A visit after which the walk goes on in the same run, with the documents as they were, takes the node off
    the work. -/
theorem Visiting.landed_of_around (h : Visiting w f more root rs p r n)
    (ha : Around (root :: rs) w.space.tree t') :
    ofRun w.space.tree k r + ofFrame w.space.tree s k f
      = weight w.space.tree k n ::ₘ landed t' s k r n f := by
  have hlevel : ∀ q, Inner w.space.tree root q → Level w.space.tree t' q := fun q hq =>
    Work.level_of_around h.wellFormed ha List.mem_cons_self h.isRoot hq
  have htrunk := Tree.trunk_inner h.wellFormed h.isRoot.live h.isRoot.parent?
  have hi := h.running.standing.inner
  unfold landed
  rw [if_pos h.running.base.symm, ofRun_of_next h.next, (hlevel p hi).past h.wellFormed ha.wellFormed h.parent?,
    Work.ofFrame_congr_of_idle h.wellFormed ha.wellFormed h.idle h.running.standing
      fun q hq _ => hlevel q (htrunk.of_under hq hi)]
  exact Multiset.cons_add _ _ _

/-- What a visit does to the work of the innermost document: it goes on in the frame `g`, and unless there is
    less left to read, there is less to do. -/
structure Eased (w : Walk) (f : Frame) (more : List Frame) (root : NodeId) (r : Run) (n : NodeId) (w' : Walk)
    (g : Frame) : Prop where
  frames : w'.frames = g :: more
  same : SameFrame f g
  idle : g.run = none
  limited : (∀ l ∈ f.loops, l.Limited) → ∀ l ∈ g.loops, l.Limited
  spent : w.supply.Spent w'.supply
  bounded : ∀ k, Bounded w.space.tree root k → Bounded w'.space.tree root k
  lighter : ∀ k s, Bounded w.space.tree root k → w'.supply = w.supply →
    IsDershowitzMannaLT (landed w'.space.tree s k r n g) (ofRun w.space.tree k r + ofFrame w.space.tree s k f)

theorem Visiting.eased_of_around (h : Visiting w f more root rs p r n)
    (ha : Around (root :: rs) w.space.tree w'.space.tree) (hf : w'.frames = w.frames)
    (hs : w'.supply = w.supply) : Eased w f more root r n w' f where
  frames := hf.trans h.frames
  same := .refl f
  idle := h.idle
  limited := id
  spent := .inl hs
  bounded := fun k hb => hb.of_around h.wellFormed ha List.mem_cons_self h.isRoot
  lighter := fun k s _ _ => Work.lighter (X := landed w'.space.tree s k r n f) (Y := 0) (Z := 0)
    (z := weight w.space.tree k n) (add_zero _).symm (by rw [h.landed_of_around ha, Multiset.cons_zero, add_comm,
      Multiset.singleton_add]) fun y hy => absurd hy (Multiset.notMem_zero y)

/-- The members of the work from a node below `q` on weigh less than a run of `q`. -/
theorem lt_of_mem_ahead (hwf : t.WellFormed) (hb : Bounded t root k) (hq : Inner t root q)
    (hp : t.parent? n = some q) {y : Nat} (hy : y ∈ ahead t k n) : y < runWeight t k q := by
  unfold ahead past at hy
  rcases Multiset.mem_cons.mp hy with rfl | hy
  · exact Work.weight_lt hwf hb hq hp
  rcases Multiset.mem_cons.mp hy with rfl | hy
  · exact Nat.succ_pos _
  obtain ⟨c, hc, rfl⟩ := List.mem_map.mp (Multiset.mem_coe.mp hy)
  obtain ⟨q', hq', hpc, -⟩ := hwf.mem_followingSiblings hc
  rw [hp] at hq'
  cases hq'
  exact Work.weight_lt hwf hb hq hpc

/-- The work of a document whose next run begins at a position. -/
theorem ofFrame_scan_cons {pos : Position} (hf : f.run = none) :
    ofFrame t s k { f with scan := pos :: f.scan } = ahead t k pos.node + ofFrame t s k f := by
  unfold ofFrame
  rw [hf, Work.ofScan_cons]
  simp only [Multiset.add_cons, add_assoc, Option.map_none, Option.getD_none, zero_add]

theorem Visiting.eased_items (h : Visiting w f more root rs p r n) (hname : w.space.tree.name n = "items")
    (hd : descend w.space.tree f.scan r.key n = .ok (t', scan))
    (hw : w' = { w with
      space := { w.space with tree := t' }
      frames := { f with scan } :: more }) :
    Eased w f more root r n w' { f with scan } := by
  have hwf := h.wellFormed
  have hi := h.running.standing.inner
  have hin : Inner w.space.tree root n := .step hi h.parent? (.inl hname)
  have hsupply : w'.supply = w.supply := by rw [hw]; rfl
  have htree : w'.space.tree = t' := by rw [hw]
  rcases descend_ok hwf h.parent? hd with ⟨-, rfl, rfl⟩ | ⟨first, next, hf, rfl, hnext⟩
  · refine h.eased_of_around ?_ (by rw [hw]; exact h.frames.symm) hsupply
    rw [htree]
    exact (Quiet.refl hwf).around hwf
  have hpf : w.space.tree.parent? first = some n := hwf.mem_children.mp (List.mem_of_head? hf)
  -- all lists but that of the siblings of the group are kept
  have hkeep : t'.WellFormed ∧ (∀ q, Inner w.space.tree root q → q ≠ p → Level w.space.tree t' q)
      ∧ (∀ k, Bounded w.space.tree root k → Bounded t' root k) ∧ Inner t' root n
      ∧ ∃ Z : Multiset Nat, (∀ z ∈ Z, z = 0) ∧ ∀ k, ahead t' k next = past w.space.tree k n + Z := by
    rcases hnext with ⟨hn, rfl⟩ | ⟨hn, hm⟩
    · exact ⟨hwf, fun _ _ _ => ⟨rfl, fun _ _ => rfl, fun _ _ => rfl, fun _ _ => rfl, rfl⟩, fun _ => id, hin, 0,
        fun z hz => absurd hz (Multiset.notMem_zero z),
        fun k => by rw [Work.ahead_next hn hwf, add_zero]⟩
    · have hlevel : ∀ q, Inner w.space.tree root q → q ≠ p → Level w.space.tree t' q := fun q hq hne =>
        level_of_added hwf h.isRoot hm hq hne
      have hln := (hwf.live_of_parent h.parent?).1
      refine ⟨hm.wellFormed, hlevel, fun k => bounded_of_marked hwf h.isRoot hm, ?_, {0}, fun z => Multiset.mem_singleton.mp,
        fun k => ?_⟩
      · exact inner_of_live hwf hm.parent? (fun c hc => Tree.name_eq_of_content (hm.content c hc)) hin
      · have hlast : t'.children p = w.space.tree.children p ++ next :: [] := hm.children
        have hname' : t'.name next = "nop" := by
          unfold Tree.name
          rw [hm.self]
        rw [Work.past_last hwf h.parent? hn]
        unfold ahead past weight
        rw [hm.wellFormed.followingSiblings_of_split hlast, hname', if_neg (by decide)]
        rfl
  obtain ⟨hwf', hlevel, hbounded, hin', Z, hZ, hahead⟩ := hkeep
  have hne : n ≠ p := (hwf.parent_ne h.parent?).symm
  have htrunk := Tree.trunk_inner hwf h.isRoot.live h.isRoot.parent?
  refine ⟨by rw [hw], ⟨rfl, rfl, rfl⟩, h.idle, id, .inl hsupply, fun k hb => htree ▸ hbounded k hb,
    fun k s hb _ => ?_⟩
  have hpf' : t'.parent? first = some n := by
    rw [← hwf'.mem_children, (hlevel n hin hne).children]
    exact hwf.mem_children.mpr hpf
  have hframe : ofFrame t' s k f = ofFrame w.space.tree s k f :=
    Work.ofFrame_congr_of_idle hwf hwf' h.idle h.running.standing
      fun q hq hqp => hlevel q (htrunk.of_under hq hi) hqp
  have hdepth : runWeight t' k n = runWeight w.space.tree k n := by
    unfold runWeight
    rw [(hlevel n hin hne).depth]
  refine Work.lighter (X := past w.space.tree k n + ofFrame w.space.tree s k f) (Y := ahead t' k first + Z)
    (Z := 0) (z := weight w.space.tree k n) ?_ ?_ fun y hy => ?_
  · unfold landed
    rw [htree, if_neg, ofFrame_scan_cons (f := { f with scan := ⟨r.key, next⟩ :: f.scan }) h.idle,
      ofFrame_scan_cons h.idle, hframe, hahead, zero_add]
    · dsimp only
      abel
    · rw [h.running.base]
      show f.scan.length + 1 + 1 ≠ f.scan.length
      omega
  · rw [ofRun_of_next h.next, Multiset.cons_add, Multiset.cons_zero, ← Multiset.singleton_add, add_comm]
  · refine Nat.lt_of_le_of_lt ?_ (Work.runWeight_lt (.inl hname))
    rcases Multiset.mem_add.mp hy with hy | hy
    · rw [← hdepth]
      exact Nat.le_of_lt (lt_of_mem_ahead hwf' (hbounded k hb) hin' hpf' hy)
    · rw [hZ y hy]
      exact Nat.zero_le _

/-- The work of a document in which one more loop runs. -/
theorem ofFrame_loops_cons :
    ofFrame t s k { f with loops := l :: f.loops } = past t k l.anchor
      + Multiset.replicate (Loop.due s l) (runWeight t k l.anchor) + ofFrame t s k f := by
  unfold ofFrame
  rw [Work.ofLoops_cons]
  dsimp only
  rw [← Multiset.singleton_add, ← Multiset.singleton_add 0]
  abel

/-- What a loop that goes on adds to the work: the nodes of its run, what is behind it, and the runs that are
    due. -/
theorem ofFrame_of_continues {S S' : Loop.Turn} (hwf : S.tree.WellFormed) (hroot : IsRoot S.tree root)
    (hq : Inner S.tree root q) (hp : S.tree.parent? S.loop.anchor = some q)
    (hname : S.tree.name S.loop.anchor = "repeat") (hf : f.run = none) (hscan : S.scan = f.scan)
    (hs : Standing S.tree root q key f.loops f.scan) (hb : Bounded S.tree root k) (hc : Continues S q S') :
    ∃ Y : Multiset Nat, (∀ y ∈ Y, y < runWeight S.tree k S.loop.anchor) ∧
      ofFrame S'.tree s k { f with scan := S'.scan, loops := S'.loop :: f.loops }
        = Y + Multiset.replicate (Loop.due s S'.loop) (runWeight S.tree k S.loop.anchor)
          + past S.tree k S.loop.anchor + ofFrame S.tree s k f := by
  have hadv := hc.advanced
  obtain ⟨first, hscan', hpf⟩ := hc.scan
  have htrunk := Tree.trunk_inner hwf hroot.live hroot.parent?
  have hwf' := hadv.wellFormed
  have hlq := htrunk.live q hq
  have hdepth : S'.tree.depth q = S.tree.depth q :=
    depth_of_parents hwf hwf' hroot.parent? hq fun m hm => hadv.parent? m (hwf.live_of_under' hlq hm)
  have hweight : runWeight S'.tree k S'.loop.anchor = runWeight S.tree k S.loop.anchor := by
    unfold runWeight
    rw [depth_of_parent hwf' hadv.parent, depth_of_parent hwf hp, hdepth]
  have hnames : ∀ c, S.tree.Live c → S'.tree.name c = S.tree.name c := by
    intro c hl
    by_cases hca : c = S'.loop.anchor
    · rcases hadv.same with ha | hnot
      · rw [hca, hadv.name, ha]
      · exact absurd (hca ▸ hl) hnot
    · exact Tree.name_eq_of_content (hadv.content c hl hca)
  have hinner : Inner S'.tree root S'.loop.anchor := .step
    (inner_of_live hwf hadv.parent? hnames hq) hadv.parent (.inr (hadv.name.trans hname))
  have hframe : ofFrame S'.tree s k f = ofFrame S.tree s k f :=
    Work.ofFrame_congr_of_idle hwf hwf' hf hs fun m hm hne => level_of_advanced hwf hroot hq hp hadv hm hne
  refine ⟨ahead S'.tree k first, fun y hy => ?_, ?_⟩
  · rw [← hweight]
    exact lt_of_mem_ahead hwf' (bounded_of_advanced hwf hroot hp hadv hb) hinner hpf hy
  · rw [hscan', hscan]
    refine (ofFrame_scan_cons (f := { f with loops := S'.loop :: f.loops }) hf).trans ?_
    rw [ofFrame_loops_cons, hframe, past_of_advanced hwf hroot hq hp hadv, hweight]
    abel

theorem Visiting.eased_loop (h : Visiting w f more root rs p r n) (hname : w.space.tree.name n = "repeat")
    (hl : startLoop f r.key n w = .ok u w') : ∃ g, Eased w f more root r n w' g := by
  obtain ⟨l, t₁, next, S, henter, hnext, hw⟩ := startLoop_ok hl
  obtain ⟨hdecl, rfl⟩ := Loop.enter_ok henter
  obtain ⟨-, -, -, hanchor⟩ := Loop.declared_ok hdecl
  have hwf := h.wellFormed
  have hpn := h.parent?
  have he := Loop.entered hwf hpn
  generalize (Loop.dropCopies w.space.tree n).setSeq n 0 = t₁ at he hnext hw
  have hi := h.running.standing.inner
  have hln : t₁.Live n := (he.live n).mpr ⟨(hwf.live_of_parent hpn).1, fun c hc hu => by
    obtain ⟨hpc, hne⟩ := Loop.parent?_of_mem_copies hwf hpn hc
    exact hne (hwf.siblings_disjoint hpc hpn hu .self)⟩
  have hpn₁ : t₁.parent? l.anchor = some p := by
    rw [hanchor, he.parent? n hln, hpn]
  have hroot := (around_of_entered hwf h.fresh h.isRoot.parent? hi hpn he).isRoot root h.isRoot
  have hstand := standing_of_entered hwf h.isRoot.live hpn he h.running.standing
  have hstep := Loop.Turn.next_ok (p := p) he.wellFormed hpn₁ hnext
  obtain ⟨hspent, hlim, -⟩ := Loop.Turn.next_spends hnext
  have hfeed : SameFeed (feedOf { w with space := { w.space with tree := t₁ } } f l) S.feed := by
    cases next with
    | true => exact hstep.feed
    | false => exact hstep.feed
  have hturn := turned_afterTurn (w := { w with space := { w.space with tree := t₁ } }) h.frames hfeed
  have hsupply : w.supply.Spent
      (afterTurn { w with space := { w.space with tree := t₁ } } f S).supply :=
    (spent_afterTurn (w := { w with space := { w.space with tree := t₁ } }) hfeed hspent).1
  generalize afterTurn { w with space := { w.space with tree := t₁ } } f S = w₂ at hturn hsupply hw
  have hbounded : ∀ k, Bounded w.space.tree root k → Bounded t₁ root k :=
    fun k hb => bounded_of_entered hwf hroot he hb
  have hframe : ∀ s k, ofFrame t₁ s k f = ofFrame w.space.tree s k f := fun s k =>
    Work.ofFrame_congr_of_idle hwf he.wellFormed h.idle h.running.standing
      fun q hq hqp => level_of_entered hwf h.isRoot hi hpn he hq hqp
  have hpast : ∀ k, past t₁ k l.anchor ≤ past w.space.tree k n := fun k => by
    rw [hanchor]
    exact past_of_entered hwf h.isRoot hi hpn he
  -- what replaces the node weighs less than it, and of what is behind it nothing is added
  have hlighter : ∀ {k s} {Y M : Multiset Nat}, (∀ y ∈ Y, y < weight w.space.tree k n) →
      M = Y + past t₁ k l.anchor + ofFrame w.space.tree s k f →
      IsDershowitzMannaLT M (ofRun w.space.tree k r + ofFrame w.space.tree s k f) := by
    intro k s Y M hY hM
    obtain ⟨D, hD⟩ := Multiset.le_iff_exists_add.mp (hpast k)
    refine Work.lighter (X := past t₁ k l.anchor + ofFrame w.space.tree s k f) (Z := D) ?_ ?_ hY
    · rw [hM]
      abel
    · rw [ofRun_of_next h.next, hD, ← Multiset.singleton_add, ← Multiset.singleton_add]
      abel
  cases next with
  | true =>
    have hc : Continues _ p S := hstep
    simp only [if_true, hturn.frames] at hw
    have htree : w'.space.tree = S.tree := by rw [hw]; exact hturn.tree
    have hsup : w'.supply = w₂.supply := by rw [hw]; rfl
    have hname₁ : t₁.name l.anchor = "repeat" := by rw [hanchor, (anchor_of_entered he).1, hname]
    refine ⟨{ f with scan := S.scan, loops := S.loop :: f.loops }, by rw [hw], ⟨rfl, rfl, rfl⟩, h.idle,
      fun hall l' hl' => ?_, hsup ▸ hsupply, fun k hb => ?_, fun k s hb _ => ?_⟩
    · rcases List.mem_cons.mp hl' with rfl | hl'
      · exact (hlim rfl).2 (Loop.limited_declared hdecl)
      · exact hall l' hl'
    · rw [htree]
      exact bounded_of_advanced he.wellFormed hroot hpn₁ hc.advanced (hbounded k hb)
    · have hmove : S.scan.length ≠ r.base := by
        obtain ⟨first, hscan, -⟩ := hc.scan
        rw [hscan, h.running.base]
        show f.scan.length + 1 ≠ f.scan.length
        omega
      obtain ⟨Y, hY, hwork⟩ := ofFrame_of_continues (f := f) (s := s) he.wellFormed hroot hstand.inner
        hpn₁ hname₁ h.idle rfl hstand (hbounded k hb) hc
      have hlt : runWeight t₁ k l.anchor < weight w.space.tree k n := by
        refine Nat.lt_of_le_of_lt (Nat.le_of_eq ?_) (Work.runWeight_lt (.inr hname))
        unfold runWeight
        rw [depth_of_parent he.wellFormed hpn₁, depth_of_parent hwf hpn, depth_of_entered hwf h.isRoot hi hpn he .self]
      refine hlighter (Y := Y + Multiset.replicate (Loop.due s S.loop) (runWeight t₁ k l.anchor)) (fun y hy => ?_) ?_
      · rcases Multiset.mem_add.mp hy with hy | hy
        · exact Nat.lt_trans (hY y hy) hlt
        · rw [Multiset.eq_of_mem_replicate hy]
          exact hlt
      · unfold landed
        rw [if_neg hmove, zero_add, htree, ← hframe]
        exact hwork
  | false =>
    have hends : Ends _ S := hstep
    have htree : w₂.space.tree = t₁ := hturn.tree.trans hends.tree
    simp only [Bool.false_eq_true, if_false] at hw
    subst hw
    refine ⟨{ f with scan := S.scan }, hturn.frames, ⟨rfl, rfl, rfl⟩, h.idle, fun hall => hall, hsupply,
      fun k hb => htree ▸ hbounded k hb,
      fun k s hb _ => hlighter (Y := 0) (fun y hy => absurd hy (Multiset.notMem_zero y)) ?_⟩
    unfold landed
    rw [htree, hends.scan, ← hframe, zero_add]
    unfold Loop.Turn.behind
    dsimp only
    cases hsib : t₁.nextSibling? l.anchor with
    | none => 
      rw [if_pos h.running.base.symm, hanchor]
    | some next =>
      rw [if_neg, ofFrame_scan_cons h.idle, zero_add, Work.ahead_next hsib he.wellFormed]
      rw [h.running.base]
      show f.scan.length + 1 ≠ f.scan.length
      omega

theorem Visiting.eased_item (h : Visiting w f more root rs p r n) (hname : w.space.tree.name n = "item")
    (h₁ : fillItem f key n w = .ok () w₁)
    (h₂ : onSink (fun files => Job.setData o files n) w₁ = .ok u w') : Eased w f more root r n w' f := by
  obtain ⟨value, rfl⟩ := fillItem_ok h₁
  have hr₁ : Refreshed w.space.tree (putValue w.space.tree n value) :=
    refreshed_putValue h.wellFormed h.parent? (by rw [hname]; decide)
  rcases onSink_ok h₂ with ⟨-, rfl⟩ | ⟨s, j, -, hj, rfl⟩
  · exact h.eased_of_around ((quiet_of_refreshed h.wellFormed hr₁).around h.wellFormed) rfl rfl
  · have hput := Job.put_setData hr₁.wellFormed hj
    exact h.eased_of_around ((quiet_of_refreshed h.wellFormed (hr₁.trans hput.tree)).around h.wellFormed) rfl rfl

theorem Visiting.eased_writer {v : Visit} (h : Visiting w f more root rs p r n)
    (hname : w.space.tree.name n = "writer") (hv : visitWriter o f n w = .ok v w') :
    Eased w f more root r n w' f := by
  rw [visitWriter, Action.get_bind_eq_ok] at hv
  cases hs : w.sink with
  | none =>
    simp only [hs] at hv
    obtain ⟨_, w₁, h₁, hv⟩ := Action.bind_eq_ok.mp hv
    obtain ⟨-, rfl⟩ := Action.pure_eq_ok.mp hv
    have ho := sinkOpened h.wellFormed (h.atWriter hname) h₁
    refine h.eased_of_around (ho.step.quiet.around h.wellFormed) ?_ ?_
    · rw [ho.rest]
    · rw [ho.rest]
      rfl
  | some s =>
    simp only [hs] at hv
    obtain ⟨s', w₁, h₁, hv⟩ := Action.bind_eq_ok.mp hv
    have ht := taken_takeSink h.wellFormed h₁
    rw [Action.modify_bind_eq_ok] at hv
    obtain ⟨-, rfl⟩ := Action.pure_eq_ok.mp hv
    refine h.eased_of_around ((quiet_of_refreshed h.wellFormed ht.tree).around h.wellFormed) ?_ ?_
    · show w₁.frames = w.frames
      rw [ht.rest]
    · show w₁.supply = w.supply
      rw [ht.rest]
      rfl

/-- Every visit takes its node off the work, or some of what is left to read. -/
theorem Visiting.eased {v : Visit} (h : Visiting w f more root rs p r n)
    (hrs : ∀ r ∈ rs, IsRoot w.space.tree r) (hdocs : ∀ d ∈ documents w, IsRoot w.space.tree d)
    (hsees : f.seesSecondary = true → rs = [] ∧ root ∉ documents w)
    (hv : Walk.visit o f r.key n w = .ok v w') : ∃ g, Eased w f more root r n w' g := by
  rw [Walk.visit, Action.get_bind_eq_ok] at hv
  obtain ⟨tag, htag, hv⟩ := Action.ofExcept_bind_eq_ok.mp hv
  have hname := tagOf_ok htag
  cases tag with
  | item =>
    obtain ⟨_, w₁, h₁, hv⟩ := Action.bind_eq_ok.mp hv
    obtain ⟨_, w₂, h₂, hv⟩ := Action.bind_eq_ok.mp hv
    obtain ⟨-, rfl⟩ := Action.pure_eq_ok.mp hv
    exact ⟨f, h.eased_item hname h₁ h₂⟩
  | items =>
    obtain ⟨⟨t, scan⟩, hd, hv⟩ := Action.ofExcept_bind_eq_ok.mp hv
    obtain ⟨_, w₁, h₁, hv⟩ := Action.bind_eq_ok.mp hv
    obtain ⟨_, w₂, h₂, hv⟩ := Action.bind_eq_ok.mp hv
    obtain ⟨-, rfl⟩ := Action.pure_eq_ok.mp hv
    rw [modifyTree_eq_ok.mp h₁] at h₂
    have hw := modifyFrame_eq_ok.mp h₂
    simp only [h.frames] at hw
    exact ⟨_, h.eased_items hname hd hw⟩
  | loop =>
    obtain ⟨_, w₁, h₁, hv⟩ := Action.bind_eq_ok.mp hv
    obtain ⟨-, rfl⟩ := Action.pure_eq_ok.mp hv
    exact h.eased_loop hname h₁
  | document =>
    obtain ⟨ha, hrest, -⟩ := h.around_document hrs hdocs hsees hv
    refine ⟨f, h.eased_of_around ha ?_ ?_⟩
    · rw [hrest]
    · rw [hrest]
      rfl
  | writer => exact ⟨f, h.eased_writer hname hv⟩
  | nop =>
    obtain ⟨-, rfl⟩ := Action.pure_eq_ok.mp hv
    exact ⟨f, h.eased_of_around ((Quiet.refl h.wellFormed).around h.wellFormed) rfl rfl⟩

/-- Behind a visit the run goes on, unless the walk goes on elsewhere. -/
theorem ofFrame_of_resume (hwf : w₁.space.tree.WellFormed)
    (hn : g.scan.length = r.base → w₁.space.tree.parent? n = some p) (hf : w₁.frames = g :: more) (hidle : g.run = none)
    (h : resume r n w₁ = .ok u w') :
    ∃ g', w'.frames = g' :: more ∧ g'.loops = g.loops ∧ SameFrame g g'
      ∧ ofFrame w₁.space.tree s k g' = landed w₁.space.tree s k r n g := by
  have hw := Action.modify_eq_ok.mp h
  simp only [hf] at hw
  subst hw
  unfold landed
  by_cases hb : g.scan.length = r.base
  · rw [if_pos hb, if_pos hb]
    refine ⟨_, rfl, rfl, ⟨rfl, rfl, rfl⟩, ?_⟩
    rw [← Work.ofRun_next hwf (hn hb) r]
    exact Work.ofFrame_takeRun (by
      unfold takeRun
      dsimp only
      rw [← hidle])
  · rw [if_neg hb, if_neg hb]
    exact ⟨g, hf, rfl, .refl g, (zero_add _).symm⟩

/-! ## The end of a run -/

/-- What asking the loops around a run does to the work of the innermost document: it goes on in the frame `g`,
    and unless there is less left to read, there is not more to do. -/
structure AskedLess (w : Walk) (f : Frame) (more : List Frame) (root : NodeId) (w' : Walk) (g : Frame) :
    Prop where
  frames : w'.frames = g :: more
  same : SameFrame f g
  limited : (∀ l ∈ f.loops, l.Limited) → ∀ l ∈ g.loops, l.Limited
  spent : w.supply.Spent w'.supply
  bounded : ∀ k, Bounded w.space.tree root k → Bounded w'.space.tree root k
  lighter : ∀ k, Bounded w.space.tree root k → (∀ l ∈ f.loops, l.Limited) → w'.supply = w.supply →
    ofFrame w'.space.tree (seen f w.supply) k g = ofFrame w.space.tree (seen f w.supply) k f
      ∨ IsDershowitzMannaLT (ofFrame w'.space.tree (seen f w.supply) k g)
          (ofFrame w.space.tree (seen f w.supply) k f)

theorem AskedLess.trans {w₁ : Walk} {f₁ : Frame} (h : AskedLess w f more root w₁ f₁)
    (h' : AskedLess w₁ f₁ more root w' g) : AskedLess w f more root w' g where
  frames := h'.frames
  same := h.same.trans h'.same
  limited := fun hl => h'.limited (h.limited hl)
  spent := h.spent.trans h'.spent
  bounded := fun k hb => h'.bounded k (h.bounded k hb)
  lighter := by
    intro k hb hl hs
    have hs₁ : w₁.supply = w.supply := h.spent.eq_of_trans h'.spent hs
    have hlast := h'.lighter k (h.bounded k hb) (h.limited hl) (hs.trans hs₁.symm)
    have hseen : seen f₁ w₁.supply = seen f w.supply := by
      unfold seen
      rw [hs₁, h.same.sees]
    rw [hseen] at hlast
    rcases h.lighter k hb hl hs₁ with hfirst | hfirst
    · rw [hfirst] at hlast
      exact hlast
    · rcases hlast with hlast | hlast
      · rw [hlast]
        exact .inr hfirst
      · exact .inr (hlast.trans hfirst)

/-- Writing up what waits changes nothing. -/
theorem RunEnded.askedLess_of_writtenUp (h : RunEnded w f more root p key parents) (hup : WrittenUp w w₁) :
    AskedLess w f more root w₁ f := by
  have hsupply : w₁.supply = w.supply := by rw [hup.rest]; rfl
  have hwf := h.wellFormed
  have ha : Around [root] w.space.tree w₁.space.tree := (quiet_of_refreshed hwf hup.tree).around hwf
  have htrunk := Tree.trunk_inner hwf h.isRoot.live h.isRoot.parent?
  refine ⟨by rw [hup.rest]; exact h.frames, .refl f, id, .inl hsupply,
    fun k hb => hb.of_around hwf ha List.mem_cons_self h.isRoot, fun k _ _ _ => .inl ?_⟩
  exact Work.ofFrame_congr_of_idle hwf ha.wellFormed h.idle h.standing fun q hq _ =>
    Work.level_of_around hwf ha List.mem_cons_self h.isRoot (htrunk.of_under hq h.standing.inner)

/-- The work of a document whose innermost loop is about to be asked. -/
theorem AtLoopEnd.ofFrame_eq (h : AtLoopEnd w f more root p q l outer) :
    ofFrame t s k f = past t k p + Multiset.replicate (Loop.due s l) (runWeight t k p)
      + ofFrame t s k { f with loops := outer } := by
  rw [← h.anchor]
  refine Eq.trans ?_ (ofFrame_loops_cons (f := { f with loops := outer }))
  rw [show ({ f with loops := l :: outer } : Frame) = f by rw [← h.loops]]

/-- A loop that goes on has one run less to do. -/
theorem AtLoopEnd.askedLess_of_continues {S : Loop.Turn} (h : AtLoopEnd w f more root p q l outer)
    (ht : turn f l w = .ok (true, S.loop) w₁) (hturn : Turned w f more S w₁)
    (hc : Continues ⟨l, w.space.tree, w.feedOf f l, f.scan⟩ q S) :
    AskedLess w f more root { w₁ with frames := { f with scan := S.scan, loops := S.loop :: outer } :: more }
      { f with scan := S.scan, loops := S.loop :: outer } := by
  have hpa : w.space.tree.parent? l.anchor = some q := by rw [h.anchor, h.parent]
  have hname : w.space.tree.name l.anchor = "repeat" := by rw [h.anchor, h.name]
  have hspends := turnSpends ht fun s' hs' => by
    have := Loop.Turn.next_ok (p := q) h.wellFormed hpa hs'
    exact Continues.feed this
  have hl : l ∈ f.loops := by rw [h.loops]; exact List.mem_cons_self
  refine ⟨rfl, ⟨rfl, rfl, rfl⟩, fun hall l' hl' => ?_, hspends.spent, fun k hb => ?_, fun k hb hall hs => ?_⟩
  · rcases List.mem_cons.mp hl' with rfl | hl'
    · exact hspends.limited rfl (hall l hl)
    · exact hall l' (by rw [h.loops]; exact List.mem_cons_of_mem _ hl')
  · show Bounded w₁.space.tree root k
    rw [hturn.tree]
    exact bounded_of_advanced h.wellFormed h.isRoot hpa hc.advanced hb
  · right
    have hdue := hspends.due rfl h.started (hall l hl) hs
    obtain ⟨Y, hY, hwork⟩ := ofFrame_of_continues (f := { f with loops := outer }) (s := seen f w.supply)
      h.wellFormed h.isRoot h.standing.inner hpa hname h.idle rfl h.standing hb hc
    show IsDershowitzMannaLT (ofFrame w₁.space.tree (seen f w.supply) k _) _
    rw [hturn.tree]
    change ofFrame S.tree _ k { f with scan := S.scan, loops := S.loop :: outer } = Y + _ + _ + _ at hwork
    obtain ⟨d, hd⟩ := Nat.exists_eq_add_of_lt hdue
    rw [hwork, h.ofFrame_eq, hd]
    dsimp only at hY ⊢
    rw [h.anchor] at hY ⊢
    refine Work.lighter (X := past w.space.tree k p
      + Multiset.replicate (Loop.due (seen f w.supply) S.loop) (runWeight w.space.tree k p)
      + ofFrame w.space.tree (seen f w.supply) k { f with loops := outer }) (Y := Y)
      (Z := Multiset.replicate d (runWeight w.space.tree k p)) (z := runWeight w.space.tree k p) ?_ ?_ hY
    · abel
    · simp only [Multiset.replicate_succ, Multiset.replicate_add, ← Multiset.singleton_add]
      abel

/-- A loop that ends has nothing more to do. -/
theorem AtLoopEnd.askedLess_of_ends {S : Loop.Turn} (h : AtLoopEnd w f more root p q l outer)
    (ht : turn f l w = .ok (false, S.loop) w₁) (hturn : Turned w f more S w₁)
    (he : Ends ⟨l, w.space.tree, w.feedOf f l, f.scan⟩ S) (hd : dropLoop outer w₁ = .ok u w') :
    AskedLess w f more root w' { f with scan := S.scan, loops := outer } := by
  have hw := dropLoop_ok hturn hd
  have htree : w'.space.tree = w.space.tree := by
    rw [hw]
    exact hturn.tree.trans he.tree
  have hpa : w.space.tree.parent? l.anchor = some q := by rw [h.anchor, h.parent]
  have hspends := turnSpends ht fun s' hs' => by
    have := Loop.Turn.next_ok (p := q) h.wellFormed hpa hs'
    exact Ends.feed this
  have hsup : w'.supply = w₁.supply := by rw [hw]; rfl
  refine ⟨by rw [hw], ⟨rfl, rfl, rfl⟩, fun hall l' hl' => hall l' ?_, hsup ▸ hspends.spent,
    fun k hb => htree ▸ hb, fun k _ _ _ => ?_⟩
  · rw [h.loops]
    exact List.mem_cons_of_mem _ hl'
  · have hbehind : ofFrame w.space.tree (seen f w.supply) k { f with scan := S.scan, loops := outer }
          = past w.space.tree k p + ofFrame w.space.tree (seen f w.supply) k { f with loops := outer }
        ∨ S.scan = f.scan := by
      rw [he.scan]
      unfold Loop.Turn.behind
      dsimp only
      rw [h.anchor]
      cases hsib : w.space.tree.nextSibling? p with
      | none => exact .inr rfl
      | some next =>
        rw [← Work.ahead_next hsib h.wellFormed]
        exact .inl (ofFrame_scan_cons (f := { f with loops := outer }) h.idle)
    rw [htree, h.ofFrame_eq]
    rcases hbehind with hbehind | hscan
    · -- only the runs that were due are dropped
      rw [hbehind]
      cases hdue : Loop.due (seen f w.supply) l with
      | zero => exact .inl (by rw [Multiset.replicate_zero, add_zero])
      | succ d =>
        refine .inr (Work.lighter (Y := 0) (Z := Multiset.replicate d (runWeight w.space.tree k p))
          (z := runWeight w.space.tree k p) (add_zero _).symm ?_ fun y hy => absurd hy (Multiset.notMem_zero y))
        rw [Multiset.replicate_succ]
        abel
    · -- what is behind the loop, its end at least, is dropped, too
      rw [hscan]
      refine .inr (Work.lighter (Y := 0) (Z := ((w.space.tree.followingSiblings p).map (weight w.space.tree k) : List Nat)
        + Multiset.replicate (Loop.due (seen f w.supply) l) (runWeight w.space.tree k p)) (z := 0)
        (add_zero _).symm ?_ fun y hy => absurd hy (Multiset.notMem_zero y))
      unfold past
      simp only [← Multiset.singleton_add]
      abel

/-- Asking the loops around a run adds nothing to what there is to do. -/
theorem RunEnded.askedLess (hrun : RunEnded w f more root p key parents)
    (h : closeLoops o parents w = .ok u w') : ∃ g, AskedLess w f more root w' g := by
  induction parents generalizing w f p key with
  | nil => cases hrun.parents
  | cons parent parents ih =>
    obtain ⟨rfl, -⟩ := List.cons.inj hrun.parents
    by_cases hname : w.space.tree.name parent = "repeat"
    · obtain ⟨_, w₁, h₁, h⟩ := (closeLoops_cons_ok hname).mp h
      obtain ⟨hup, -⟩ := writtenUp hrun.wellFormed h₁
      have hf₁ : w₁.frames = f :: more := by rw [hup.rest]; exact hrun.frames
      have hless := hrun.askedLess_of_writtenUp hup
      rw [askLoop, Action.get_bind_eq_ok] at h
      simp only [hf₁] at h
      cases hloops : f.loops with
      | nil =>
        simp only [hloops] at h
        rw [strayLoop, Action.get_bind_eq_ok] at h
        exact (Action.fail_eq_ok.mp h).elim
      | cons l outer =>
        simp only [hloops] at h
        obtain ⟨⟨next, l'⟩, w₂, h₂, h⟩ := Action.bind_eq_ok.mp h
        obtain ⟨q, hat⟩ := hrun.atLoopEnd hname hloops hup
        obtain ⟨S, rfl, hturn, hstep⟩ := hat.turned h₂
        cases next with
        | true =>
          have hw := modifyFrame_eq_ok.mp h
          simp only [hturn.frames] at hw
          subst hw
          exact ⟨_, hless.trans (hat.askedLess_of_continues h₂ hturn hstep)⟩
        | false =>
          obtain ⟨_, w₃, h₃, h⟩ := Action.bind_eq_ok.mp h
          rw [Action.get_bind_eq_ok] at h
          have hless₃ := hless.trans (hat.askedLess_of_ends h₂ hturn hstep h₃)
          by_cases hcas : cascades w₃.space.tree outer parent = true
          · simp only [hcas, if_true] at h
            obtain ⟨g, hg⟩ := ih (hrun.outward hup hat hturn hstep h₃ hcas) h
            exact ⟨g, hless₃.trans hg⟩
          · simp only [hcas] at h
            obtain ⟨-, rfl⟩ := Action.pure_eq_ok.mp h
            exact ⟨_, hless₃⟩
    · obtain rfl := closeLoops_eq_ok_of_ne hname h
      exact ⟨f, hrun.frames, .refl f, id, .refl _, fun _ => id, fun _ _ _ _ => .inl rfl⟩

end Stencil.Walk
