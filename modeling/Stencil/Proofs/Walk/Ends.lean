/-
  Walks end.

  Of two rounds the second finds less: less that is left to read, or as much to read and less to do.  What there
  is to do is a multiset (`load`); the work of the document that sees the secondary documents counts for more
  than all work in these, so that a document can be entered for the price of the node that asks for it
  (`Coherent.eases`).  When no document is left, a sink is handed out at most.

  Documents that are read on demand are left out: such a document can name itself, and be read again and again.
-/
import Mathlib.Data.Prod.Lex
import Stencil.Proofs.Import.Reading
import Stencil.Proofs.Walk.Position
import Stencil.Proofs.Walk.Progress

set_option autoImplicit false

namespace Stencil.Walk

open Stencil.Tree (Under Inner)
open Multiset (IsDershowitzMannaLT)
open Work (ofRun ofFrame)

variable {t t' : Tree} {docs rs roots : List NodeId} {ks : List Nat} {root n p : NodeId} {r : Run} {f g : Frame}
  {more frames : List Frame} {w w₁ w' : Walk} {o : Options} {s : Supply} {u : Unit} {even : Prop} {k : Nat}

/-! ## The work of all documents -/

/-- A member of the work of a frame. -/
def rank (f : Frame) (x : Nat) : Nat ×ₗ Nat := toLex (if f.seesSecondary then 1 else 0, x)

/-- The work of the documents that are walked; `ks` bounds the depth of each. -/
def load (t : Tree) (s : Supply) : List Frame → List Nat → Multiset (Nat ×ₗ Nat)
  | f :: fs, k :: ks => (ofFrame t (seen f s) k f).map (rank f) + load t s fs ks
  | _, _ => 0

theorem load_cons (f : Frame) (fs : List Frame) (k : Nat) (ks : List Nat) :
    load t s (f :: fs) (k :: ks) = (ofFrame t (seen f s) k f).map (rank f) + load t s fs ks := rfl

theorem rank_lt {x y : Nat} (h : x < y) : rank f x < rank f y :=
  Prod.Lex.toLex_lt_toLex.mpr (.inr ⟨rfl, h⟩)

theorem SameFrame.rank (h : SameFrame f g) : rank g = rank f := by
  unfold Walk.rank
  rw [h.sees]

theorem SameFrame.seen (h : SameFrame f g) (s : Supply) : seen g s = seen f s := by
  unfold Walk.seen
  rw [h.sees]

/-- A document that is entered is paid for by the node that asks for it. -/
theorem load_lt_of_enter {F : Frame} {E M N : Multiset Nat} {L : Multiset (Nat ×ₗ Nat)}
    (hf : f.seesSecondary = true) (hF : F.seesSecondary = false) (h : IsDershowitzMannaLT M N) :
    IsDershowitzMannaLT (E.map (rank F) + (M.map (rank f) + L)) (N.map (rank f) + L) := by
  obtain ⟨X, Y, Z, hZ, rfl, rfl, hlt⟩ := h
  refine ⟨X.map (rank f) + L, Y.map (rank f) + E.map (rank F), Z.map (rank f), ?_, ?_, ?_, fun y hy => ?_⟩
  · exact fun he => hZ (Multiset.map_eq_zero.mp he)
  · rw [Multiset.map_add]
    abel
  · rw [Multiset.map_add]
    abel
  · rcases Multiset.mem_add.mp hy with hy | hy
    · obtain ⟨x, hx, rfl⟩ := Multiset.mem_map.mp hy
      obtain ⟨z, hz, hxz⟩ := hlt x hx
      exact ⟨rank f z, Multiset.mem_map_of_mem _ hz, rank_lt hxz⟩
    · obtain ⟨x, -, rfl⟩ := Multiset.mem_map.mp hy
      obtain ⟨z, hz⟩ := Multiset.exists_mem_of_ne_zero hZ
      refine ⟨rank f z, Multiset.mem_map_of_mem _ hz, Prod.Lex.toLex_lt_toLex.mpr (.inl ?_)⟩
      rw [hf, hF]
      exact Nat.one_pos

/-- The innermost document has less to do. -/
theorem load_lt {M N : Multiset Nat} {L : Multiset (Nat ×ₗ Nat)} (h : IsDershowitzMannaLT M N) :
    IsDershowitzMannaLT (M.map (rank f) + L) (N.map (rank f) + L) := by
  obtain ⟨X, Y, Z, hZ, rfl, rfl, hlt⟩ := h
  refine ⟨X.map (rank f) + L, Y.map (rank f), Z.map (rank f), ?_, ?_, ?_, fun y hy => ?_⟩
  · exact fun he => hZ (Multiset.map_eq_zero.mp he)
  · rw [Multiset.map_add]
    abel
  · rw [Multiset.map_add]
    abel
  · obtain ⟨x, hx, rfl⟩ := Multiset.mem_map.mp hy
    obtain ⟨z, hz, hxz⟩ := hlt x hx
    exact ⟨rank f z, Multiset.mem_map_of_mem _ hz, rank_lt hxz⟩

/-- A change that leaves the documents that are walked alone leaves their work alone. -/
theorem load_of_around (hwf : t.WellFormed) (ha : Around roots t t') (h : Stack t docs frames roots) :
    load t' s frames ks = load t s frames ks := by
  induction h generalizing ks with
  | nil => rfl
  | @main f r hroot hplaced =>
    cases ks with
    | nil => rfl
    | cons k ks =>
      rw [load_cons, load_cons, Work.ofFrame_of_around hwf ha List.mem_cons_self hroot hplaced]
      rfl
  | @«import» f r fs rs _ _ hroot hplaced _ _ _ _ ih =>
    cases ks with
    | nil => rfl
    | cons k ks =>
      rw [load_cons, load_cons, Work.ofFrame_of_around hwf ha List.mem_cons_self hroot hplaced,
        ih (ha.mono fun r hr => List.mem_cons_of_mem _ hr)]

/-- The depths of the documents that are walked are bounded. -/
def Depths (t : Tree) (docs : List NodeId) : List Frame → List Nat → Prop :=
  List.Forall₂ fun f k => ∀ r, rootOf docs f = some r → Bounded t r k

theorem Depths.of_around (hwf : t.WellFormed) (ha : Around roots t t') (h : Stack t docs frames roots)
    (hk : Depths t docs frames ks) : Depths t' docs frames ks := by
  induction h generalizing ks with
  | nil =>
    cases hk
    exact .nil
  | @main f r hroot _ hfound =>
    cases hk with
    | cons hb hks =>
      cases hks
      refine .cons (fun r' hr' => ?_) .nil
      rw [hfound] at hr'
      cases hr'
      exact (hb r hfound).of_around hwf ha List.mem_cons_self hroot
  | @«import» f r fs rs _ _ hroot _ hfound _ _ _ ih =>
    cases hk with
    | cons hb hks =>
      refine .cons (fun r' hr' => ?_) (ih (ha.mono fun r hr => List.mem_cons_of_mem _ hr) hks)
      rw [hfound] at hr'
      cases hr'
      exact (hb r hfound).of_around hwf ha List.mem_cons_self hroot

/-- What is measured of a walk makes sense: depths are bounded, loops have an end, and no document is given up,
    because none has been read on demand. -/
structure Measured (w : Walk) (ks : List Nat) : Prop where
  depths : Depths w.space.tree (documents w) w.frames ks
  limited : ∀ f ∈ w.frames, ∀ l ∈ f.loops, l.Limited
  kept : ∀ f ∈ w.frames, f.owned = none

/-- Less is left to read, or there is less to do. -/
structure Eases (w : Walk) (ks : List Nat) (w' : Walk) (ks' : List Nat) : Prop where
  measured : Measured w' ks'
  spent : w.supply.Spent w'.supply
  lighter : w'.supply = w.supply → IsDershowitzMannaLT (load w'.space.tree w.supply w'.frames ks')
    (load w.space.tree w.supply w.frames ks)

/-! ## Rounds -/

/-- The change of output that is due changes nothing that counts. -/
theorem Coherent.around_rotate (h : Coherent even w roots) (hr : Walk.rotate o w = .ok u w') :
    Around roots w.space.tree w'.space.tree ∧ w'.supply = w.supply ∧ documents w' = documents w := by
  rcases h.rotate_ok hr with ⟨rfl, -⟩ | ⟨n, r, f, more, -, ho⟩
  · exact ⟨(Quiet.refl h.wellFormed).around h.wellFormed, rfl, rfl⟩
  · refine ⟨ho.step.quiet.around h.wellFormed, ?_, ?_⟩
    · rw [ho.rest]
      rfl
    · rw [ho.rest]
      rfl

theorem Coherent.eases_leave (h : Coherent even w roots) (hk : Measured w ks) (hf : w.frames = f :: more)
    (hl : Walk.leave o w = .ok u w') :
    ∃ ks', Eases w ks w' ks' := by
  obtain ⟨_, w₁, h₁, hl⟩ := Action.bind_eq_ok.mp hl
  obtain ⟨_, w₂, h₂, hl⟩ := Action.bind_eq_ok.mp hl
  rw [popLevel_eq_ok] at h₂
  subst h₂
  rw [Action.get_bind_eq_ok] at hl
  have hd := levelDone h.wellFormed h₁
  have hq := quiet_of_refreshed h.wellFormed hd.tree
  have hf₁ : w₁.frames = f :: more := by rw [hd.rest]; exact hf
  have hdocs : documents w₁ = documents w := by rw [hd.rest]; rfl
  have hsup : w₁.supply = w.supply := by rw [hd.rest]; rfl
  have hkept : f.owned = none := hk.kept f (by rw [hf]; exact List.mem_cons_self)
  simp only [hf₁] at hl
  rw [Action.set_bind_eq_ok] at hl
  simp only [hkept] at hl
  obtain ⟨-, rfl⟩ := Action.pure_eq_ok.mp hl
  have hstack := h.stack
  rw [hf] at hstack
  obtain ⟨root, rs, rfl⟩ := hstack.roots_cons
  have ha : Around rs w.space.tree w₁.space.tree := hq.around h.wellFormed
  have hdepths := hk.depths
  rw [hf] at hdepths
  cases hdepths with
  | @cons _ k _ ks hb hks =>
    have hin : ∀ g ∈ more, g ∈ w.frames := fun g hg => by rw [hf]; exact List.mem_cons_of_mem _ hg
    refine ⟨ks, ⟨?_, fun g hg => hk.limited g (hin g hg), fun g hg => hk.kept g (hin g hg)⟩, .inl hsup, fun _ => ?_⟩
    · show Depths w₁.space.tree (documents w₁) more ks
      rw [hdocs]
      exact Depths.of_around h.wellFormed ha hstack.tail hks
    · show IsDershowitzMannaLT (load w₁.space.tree w.supply more ks) _
      rw [hf, load_cons, load_of_around h.wellFormed ha hstack.tail, add_comm]
      refine ⟨_, 0, _, ?_, (add_zero _).symm, rfl, fun y hy => absurd hy (Multiset.notMem_zero y)⟩
      unfold ofFrame
      rw [Multiset.map_cons]
      exact Multiset.cons_ne_zero

/-- What taking the next run of the innermost document does to the work. -/
theorem load_takeRun {ks : List Nat} (ht : takeRun f = some (r, g)) (hsame : SameFrame f g) :
    load t s (f :: more) (k :: ks)
      = (ofRun t k r + ofFrame t (seen g s) k g).map (rank g) + load t s more ks := by
  rw [load_cons, Work.ofFrame_takeRun ht, hsame.rank, hsame.seen]

theorem Coherent.eases_closeLoops (h : Coherent even w (root :: rs)) (hk : Measured w ks)
    (hf : w.frames = f :: more) (ht : takeRun f = some (r, g)) (hn : r.next = none)
    (hl : closeLoops o (w.space.tree.ancestors r.first) { w with frames := g :: more } = .ok u w') :
    ∃ ks', Eases w ks w' ks' := by
  obtain ⟨hsame, hloops, -⟩ := h.visiting hf ht
  obtain ⟨p, hended⟩ := h.runEnded hf ht
  have hstack := h.stack
  rw [hf] at hstack
  obtain ⟨g', hless⟩ := hended.askedLess hl
  have hask := asked_closeLoops hended hstack.head.2.2.1 hl
  have hsame' := hsame.trans hless.same
  have hdocs : documents w' = documents w := hask.steady.docs
  have hdepths := hk.depths
  rw [hf] at hdepths
  cases hdepths with
  | @cons _ k _ ks hb hks =>
    have hin : ∀ d ∈ more, d ∈ w.frames := fun d hd => by rw [hf]; exact List.mem_cons_of_mem _ hd
    have hfm : f ∈ w.frames := by rw [hf]; exact List.mem_cons_self
    have hlim : ∀ l ∈ g.loops, l.Limited := fun l hl => hk.limited f hfm l (hloops ▸ hl)
    have hbr := hb root hstack.found
    refine ⟨k :: ks, ⟨?_, fun d hd => ?_, fun d hd => ?_⟩, hless.spent, fun hs => ?_⟩
    · rw [hless.frames, hdocs]
      refine .cons (fun r' hr' => ?_) (Depths.of_around h.wellFormed hask.around hstack.tail hks)
      rw [hsame'.rootOf, hstack.found] at hr'
      cases hr'
      exact hless.bounded k hbr
    · rw [hless.frames] at hd
      rcases List.mem_cons.mp hd with rfl | hd
      · exact hless.limited hlim
      · exact hk.limited d (hin d hd)
    · rw [hless.frames] at hd
      rcases List.mem_cons.mp hd with rfl | hd
      · rw [hsame'.owned]
        exact hk.kept f hfm
      · exact hk.kept d (hin d hd)
    · rw [hless.frames, hf, load_takeRun ht hsame, load_cons, hless.same.rank, hless.same.seen,
        load_of_around h.wellFormed hask.around hstack.tail]
      refine load_lt ?_
      have hend : ofRun w.space.tree k r = {0} := by
        unfold ofRun
        rw [hn]
      have hdrop : IsDershowitzMannaLT (ofFrame w.space.tree (seen g w.supply) k g)
          (ofRun w.space.tree k r + ofFrame w.space.tree (seen g w.supply) k g) := by
        rw [hend]
        exact Work.lighter (Y := 0) (Z := 0) (z := 0) (add_zero _).symm (add_comm _ _)
          fun y hy => absurd hy (Multiset.notMem_zero y)
      rcases hless.lighter k hbr hlim hs with heq | hlt
      · change ofFrame w'.space.tree (seen g w.supply) k g' = ofFrame w.space.tree (seen g w.supply) k g at heq
        rw [heq]
        exact hdrop
      · exact hlt.trans hdrop

theorem enter_rest {e : Entry} (h : enter o e w = .ok u w') :
    w'.supply = w.supply ∧ ∃ g, w'.frames = g :: w.frames ∧ g.loops = [] := by
  rw [enter, Action.get_bind_eq_ok] at h
  obtain ⟨_, w₁, h₁, h⟩ := Action.bind_eq_ok.mp h
  obtain ⟨d, -, rfl⟩ := onDesk_ok h₁
  rw [Action.modify_bind_eq_ok] at h
  obtain ⟨_, w₂, h₂, h⟩ := Action.bind_eq_ok.mp h
  rw [pushLevel_eq_ok] at h₂
  rw [Action.modify_eq_ok.mp h]
  subst h₂
  exact ⟨rfl, _, rfl, rfl⟩

/-- Only an import leads into a document: one that is read on demand, or a secondary document. -/
theorem Visiting.entry {e : Entry} (h : Visiting w f more root rs p r n)
    (hrs : ∀ r ∈ rs, IsRoot w.space.tree r) (hdocs : ∀ d ∈ documents w, IsRoot w.space.tree d)
    (hsees : f.seesSecondary = true → rs = [] ∧ root ∉ documents w)
    (hv : Walk.visit o f r.key n w = .ok (.enter e) w') : w.space.tree.name n = "import"
      ∧ if e.owned then w.space.tree.attr? n "type" = some "dynamic" else f.seesSecondary = true := by
  rw [Walk.visit, Action.get_bind_eq_ok] at hv
  obtain ⟨tag, htag, hv⟩ := Action.ofExcept_bind_eq_ok.mp hv
  have hname := tagOf_ok htag
  cases tag with
  | document =>
    obtain ⟨-, -, hdone | ⟨e', he, -, howned⟩⟩ := h.around_document hrs hdocs hsees hv
    · cases hdone
    · cases he
      exact ⟨hname, howned⟩
  | writer =>
    obtain ⟨-, ⟨hdone, -⟩ | ⟨s, hyield, -⟩⟩ := h.writer hname hv
    · cases hdone
    · cases hyield
  | item =>
    obtain ⟨_, w₁, -, hv⟩ := Action.bind_eq_ok.mp hv
    obtain ⟨_, w₂, -, hv⟩ := Action.bind_eq_ok.mp hv
    cases (Action.pure_eq_ok.mp hv).1
  | items =>
    obtain ⟨_, -, hv⟩ := Action.ofExcept_bind_eq_ok.mp hv
    obtain ⟨_, w₁, -, hv⟩ := Action.bind_eq_ok.mp hv
    obtain ⟨_, w₂, -, hv⟩ := Action.bind_eq_ok.mp hv
    cases (Action.pure_eq_ok.mp hv).1
  | loop =>
    obtain ⟨_, w₁, -, hv⟩ := Action.bind_eq_ok.mp hv
    cases (Action.pure_eq_ok.mp hv).1
  | nop => cases (Action.pure_eq_ok.mp hv).1

theorem Coherent.eases_advance {progress : Progress} (h : Coherent even w (root :: rs)) (hk : Measured w ks)
    (hf : w.frames = f :: more) (ht : takeRun f = some (r, g)) (hrot : w.rotation = none)
    (hn : r.next = some n)
    (hdyn : w.space.tree.name n = "import" → w.space.tree.attr? n "type" ≠ some "dynamic")
    (ha : Walk.advance o g r n { w with frames := g :: more } = .ok progress w') :
    ∃ ks', Eases w ks w' ks' := by
  obtain ⟨hsame, hloops, p, hrun, hidle⟩ := h.visiting hf ht
  have hstack := h.stack
  rw [hf] at hstack
  obtain ⟨hroot, -, hfresh, -⟩ := hstack.head
  have hvisiting : Visiting { w with frames := g :: more } g more root rs p r n :=
    ⟨h.wellFormed, rfl, hidle, hroot, hfresh, hrun, hn⟩
  have hrs : ∀ r ∈ rs, IsRoot w.space.tree r := fun r hm => hstack.tail.isRoot hm
  have hsees : g.seesSecondary = true → rs = [] ∧ root ∉ documents w := fun hs =>
    (hstack.main_of_sees (hsame.sees.symm.trans hs)).2
  obtain ⟨v, w₁, h₁, ha⟩ := Action.bind_eq_ok.mp ha
  obtain ⟨_, w₂, h₂, ha⟩ := Action.bind_eq_ok.mp ha
  have hv := Action.locating_eq_ok.mp h₁
  obtain ⟨hvisited, hfollows⟩ := hvisiting.visit hrs h.docs hsees hrot hv
  obtain ⟨g₁, heased⟩ := hvisiting.eased hrs h.docs hsees hv
  have hwf₁ := hvisited.around.wellFormed
  have hrest := (hvisited.resume hn h₂).1
  have hpn₁ : g₁.scan.length = r.base → w₁.space.tree.parent? n = some p := fun hb => by
    obtain ⟨g', hf', -, -, -, hland⟩ := hvisited.frame
    rw [heased.frames] at hf'
    cases hf'
    cases hland with
    | here hrun' => exact (hrun'.next n hn).1
    | away hne => exact absurd hb hne
  have hsupply₂ : w₂.supply = w₁.supply := by
    rw [hrest]
    rfl
  have htree₂ : w₂.space.tree = w₁.space.tree := by rw [hrest]
  have hdocs₂ : documents w₂ = documents w := by
    rw [hrest]
    exact hvisited.steady.docs
  have hdepths := hk.depths
  rw [hf] at hdepths
  cases hdepths with
  | @cons _ k _ ks hb hks =>
    have hbr := hb root hstack.found
    have hin : ∀ d ∈ more, d ∈ w.frames := fun d hd => by rw [hf]; exact List.mem_cons_of_mem _ hd
    have hfm : f ∈ w.frames := by rw [hf]; exact List.mem_cons_self
    obtain ⟨g₂, hf₂, hl₂, hs₂, hwork⟩ := ofFrame_of_resume (s := seen g w.supply) (k := k) hwf₁ hpn₁ heased.frames
      heased.idle h₂
    have hsame₂ : SameFrame f g₂ := hsame.trans (heased.same.trans hs₂)
    have hmeasured : Measured w₂ (k :: ks) := by
      refine ⟨?_, fun d hd => ?_, fun d hd => ?_⟩
      · rw [hf₂, hdocs₂, htree₂]
        refine .cons (fun r' hr' => ?_) (Depths.of_around h.wellFormed hvisited.around hstack.tail hks)
        rw [hsame₂.rootOf, hstack.found] at hr'
        cases hr'
        exact heased.bounded k hbr
      · rw [hf₂] at hd
        rcases List.mem_cons.mp hd with rfl | hd
        · rw [hl₂]
          exact heased.limited fun l hl => hk.limited f hfm l (hloops ▸ hl)
        · exact hk.limited d (hin d hd)
      · rw [hf₂] at hd
        rcases List.mem_cons.mp hd with rfl | hd
        · rw [hsame₂.owned]
          exact hk.kept f hfm
        · exact hk.kept d (hin d hd)
    have hlighter : w₁.supply = w.supply → IsDershowitzMannaLT
        (ofFrame w₁.space.tree (seen g w.supply) k g₂)
        (ofRun w.space.tree k r + ofFrame w.space.tree (seen g w.supply) k g) := fun hs => by
      rw [hwork]
      exact heased.lighter k (seen g w.supply) hbr hs
    have hload : load w₂.space.tree w.supply w₂.frames (k :: ks)
        = (ofFrame w₁.space.tree (seen g w.supply) k g₂).map (rank g) + load w.space.tree w.supply more ks := by
      rw [hf₂, load_cons, htree₂, load_of_around h.wellFormed hvisited.around hstack.tail,
        (heased.same.trans hs₂).rank, (heased.same.trans hs₂).seen]
    have hbefore : load w.space.tree w.supply w.frames (k :: ks)
        = (ofRun w.space.tree k r + ofFrame w.space.tree (seen g w.supply) k g).map (rank g)
          + load w.space.tree w.supply more ks := by
      rw [hf, load_takeRun ht hsame]
    have hstay : Eases w (k :: ks) w₂ (k :: ks) := by
      refine ⟨hmeasured, hsupply₂ ▸ heased.spent, fun hs => ?_⟩
      rw [hload, hbefore]
      exact load_lt (hlighter (hsupply₂ ▸ hs))
    cases hfollows with
    | done =>
      obtain ⟨-, rfl⟩ := Action.pure_eq_ok.mp ha
      exact ⟨_, hstay⟩
    | yield =>
      obtain ⟨-, rfl⟩ := Action.pure_eq_ok.mp ha
      exact ⟨_, hstay⟩
    | @enter e hr he =>
      obtain ⟨_, w₃, h₃, ha⟩ := Action.bind_eq_ok.mp ha
      obtain ⟨-, rfl⟩ := Action.pure_eq_ok.mp ha
      obtain ⟨hname, howned⟩ := hvisiting.entry hrs h.docs hsees hv
      have hkept : e.owned = false := by
        cases ho : e.owned with
        | false => rfl
        | true =>
          rw [ho] at howned
          exact absurd howned (hdyn hname)
      rw [hkept] at howned
      have hstack₂ : Stack w₂.space.tree (documents w₂) w₂.frames (root :: rs) := by
        obtain ⟨g', hf', hsame', -, hplaced⟩ := (hvisited.resume hn h₂).2
        rw [hdocs₂, hf']
        exact hstack.replace h.wellFormed (htree₂ ▸ hvisited.around) hplaced (hsame.trans hsame')
      have hent : EnteredDocument w₂ (root :: rs) e w₃ :=
        enteredDocument (htree₂ ▸ hwf₁) (htree₂ ▸ he.isRoot) he.fresh h₃
      obtain ⟨F, hF, hFsrc, hFs, hFo, hFl, -⟩ := hent.frame
      rw [hkept] at hFo
      have hsup₃ := (enter_rest h₃).1
      obtain ⟨k₀, hk₀⟩ := exists_bounded hent.around.wellFormed hent.isRoot.live
      have hFroot : rootOf (documents w₃) F = some e.document.root := by
        obtain ⟨i, hsrc, hi⟩ := he.found hkept
        rw [show documents w₁ = documents w from hvisited.steady.docs] at hi
        unfold rootOf
        rw [hFo, hFsrc, hsrc, hent.steady.docs, hdocs₂]
        exact hi
      refine ⟨k₀ :: k :: ks, ⟨?_, fun d hd => ?_, fun d hd => ?_⟩, ?_, fun hs => ?_⟩
      · rw [hF, hent.steady.docs]
        refine .cons (fun r' hr' => ?_) (Depths.of_around (htree₂ ▸ hwf₁) hent.around hstack₂ hmeasured.depths)
        rw [← hent.steady.docs, hFroot] at hr'
        cases hr'
        exact hk₀
      · rw [hF] at hd
        rcases List.mem_cons.mp hd with rfl | hd
        · rw [hFl]
          exact fun l hl => absurd hl List.not_mem_nil
        · exact hmeasured.limited d hd
      · rw [hF] at hd
        rcases List.mem_cons.mp hd with rfl | hd
        · exact hFo
        · exact hmeasured.kept d hd
      · rw [hsup₃]
        exact hstay.spent
      · rw [hF, load_cons, load_of_around (htree₂ ▸ hwf₁) hent.around hstack₂, hload, hbefore]
        refine load_lt_of_enter howned ?_ (hlighter ?_)
        · rw [hFs, he.sees]
        · rw [← hsupply₂, ← hsup₃, hs]

theorem Eases.of_rotate (ha : load w₁.space.tree w.supply w₁.frames ks = load w.space.tree w.supply w.frames ks)
    (hs : w₁.supply = w.supply) {ks' : List Nat} (h : Eases w₁ ks w' ks') : Eases w ks w' ks' where
  measured := h.measured
  spent := hs ▸ h.spent
  lighter := fun he => by
    rw [← ha, ← hs]
    exact h.lighter (he.trans hs.symm)

/-- While a document is left, a round takes something away, unless it reads a document on demand. -/
theorem Coherent.eases {progress : Progress} (h : Coherent even w roots) (hk : Measured w ks)
    (hne : w.frames ≠ []) (hr : Walk.round o w = .ok progress w')
    (hdyn : ∀ g r w₁ n, TakesUp o w g r w₁ → r.next = some n → w₁.space.tree.name n = "import" →
      w₁.space.tree.attr? n "type" ≠ some "dynamic") : ∃ ks', Eases w ks w' ks' := by
  obtain ⟨w₁, h₁, hr⟩ := round_ok hr
  obtain ⟨hc, hframes, hrot⟩ := h.rotate h₁
  obtain ⟨ha, hsup, hdocs⟩ := h.around_rotate h₁
  have hk₁ : Measured w₁ ks := by
    refine ⟨?_, hframes ▸ hk.limited, hframes ▸ hk.kept⟩
    rw [hframes, hdocs]
    exact Depths.of_around h.wellFormed ha h.stack hk.depths
  have hload : load w₁.space.tree w.supply w₁.frames ks = load w.space.tree w.supply w.frames ks := by
    rw [hframes, load_of_around h.wellFormed ha h.stack]
  rcases hr with ⟨hf, -⟩ | ⟨f, more, hf, hr⟩
  · exact absurd (hframes.symm.trans hf) hne
  have hstack := hc.stack
  rw [hf] at hstack
  obtain ⟨root, rs, rfl⟩ := hstack.roots_cons
  have heases : ∃ ks', Eases w₁ ks w' ks' := by
    rcases hr with ⟨-, -, hr⟩ | ⟨r, g, ht, ⟨n, hn, hr⟩ | ⟨hn, -, hr⟩⟩
    · exact hc.eases_leave hk₁ hf hr
    · have htakes : TakesUp o w g r { w₁ with frames := g :: more } := ⟨w₁, f, more, h₁, hf, ht, rfl⟩
      exact hc.eases_advance hk₁ hf ht hrot hn (hdyn g r { w₁ with frames := g :: more } n htakes hn) hr
    · exact hc.eases_closeLoops hk₁ hf ht hn hr
  obtain ⟨ks', hks⟩ := heases
  exact ⟨ks', hks.of_rotate hload hsup⟩

/-! ## Whole walks -/

/-- From a state on, rounds hand out some sinks, until a round fails with an error, or the walk is over. -/
inductive Ends (o : Options) : Walk → List Sink → Option Error → Walk → Prop
  | finished {w w' : Walk} (h : round o w = .ok .finished w') : Ends o w [] none w'
  | failed {w w' : Walk} {e : Error} (h : round o w = .error e w') : Ends o w [] (some e) w'
  | goOn {w w₁ w' : Walk} {ss : List Sink} {e : Option Error} (h : round o w = .ok .goOn w₁)
      (further : Ends o w₁ ss e w') : Ends o w ss e w'
  | yield {w w₁ w' : Walk} {s : Sink} {ss : List Sink} {e : Option Error}
      (h : round o w = .ok (.yield s) w₁) (further : Ends o w₁ ss e w') : Ends o w (s :: ss) e w'

/-- When no document is left, a round ends the walk. -/
theorem round_of_no_frames (hf : w.frames = []) : round o w = finish w := by
  have hrot : rotate o w = .ok () w := by
    rw [Walk.rotate, Action.get_bind]
    cases w.rotation <;> simp only [hf] <;> rfl
  unfold round
  rw [Action.bind_of_ok hrot, Action.get_bind]
  simp only [hf]

/-- Behind the last document a sink is handed out at most. -/
theorem exists_ends_of_no_frames (hf : w.frames = []) : ∃ ss e w', Ends o w ss e w' := by
  have hdone : ∀ {w : Walk}, w.frames = [] → w.sink = none → Ends o w [] none w := by
    intro w hf hs
    refine .finished ?_
    rw [round_of_no_frames hf, finish, Action.get_bind]
    simp only [hs]
    rfl
  cases hs : w.sink with
  | none => exact ⟨_, _, _, hdone hf hs⟩
  | some s =>
    have hround : round o w = .ok (.yield s.flush) (keep s { w with sink := none }) := by
      rw [round_of_no_frames hf, finish, Action.get_bind]
      simp only [hs]
      rfl
    refine ⟨_, _, _, .yield hround (hdone ?_ ?_)⟩
    · rw [keep_rest]
      exact hf
    · rw [keep_rest]

/-- No document is read on demand. -/
def Undemanding (o : Options) (s : Setup) : Prop :=
  ∀ w, Reached o s w → ∀ g r w₁ n, TakesUp o w g r w₁ → r.next = some n → w₁.space.tree.name n = "import" →
    w₁.space.tree.attr? n "type" ≠ some "dynamic"

/-- From a state that is measured the walk ends. -/
theorem Reached.exists_ends {s : Setup} (hdyn : Undemanding o s) (h : Reached o s w) (hk : Measured w ks) :
    ∃ ss e w', Ends o w ss e w' := by
  induction hm : (w.supply.left, load w.space.tree w.supply w.frames ks) using
    (WellFounded.prod_lex (α := Nat) (β := Multiset (Nat ×ₗ Nat)) wellFounded_lt
      Multiset.wellFounded_isDershowitzMannaLT).induction generalizing w ks with
  | _ m ih =>
  subst hm
  by_cases hf : w.frames = []
  · exact exists_ends_of_no_frames hf
  cases hr : Walk.round o w with
  | error e w' => exact ⟨_, _, _, .failed hr⟩
  | ok progress w' =>
    obtain ⟨roots, hc⟩ := h.coherent
    obtain ⟨ks', hks⟩ := hc.eases hk hf hr (hdyn w h)
    have hless : Prod.Lex (· < ·) IsDershowitzMannaLT
        (w'.supply.left, load w'.space.tree w'.supply w'.frames ks')
        (w.supply.left, load w.space.tree w.supply w.frames ks) := by
      rcases hks.spent with hsame | ⟨hleft, -⟩
      · have hlt := hks.lighter hsame
        rw [hsame]
        exact .right _ hlt
      · exact .left _ _ hleft
    obtain ⟨ss, e, w'', hends⟩ := ih _ hless (.round h hr) hks.measured rfl
    cases progress with
    | goOn => exact ⟨_, _, _, .goOn hr hends⟩
    | yield s => exact ⟨_, _, _, .yield hr hends⟩
    | finished => exact ⟨_, _, _, .finished hr⟩

/-- A walk that has begun is measured. -/
theorem exists_measured {s : Setup} (h : start o ⟨0, s.main.path⟩ (begin s) = .ok u w) :
    ∃ ks, Measured w ks := by
  have hc := Coherent.start h
  rw [start, Action.modify_bind_eq_ok] at h
  obtain ⟨-, g, hg, hloops⟩ := enter_rest h
  have hframes : w.frames = [g] := by
    rw [hg]
    unfold begin
    rfl
  have hstack := hc.stack
  rw [hframes] at hstack
  obtain ⟨hroot, -, -, -⟩ := hstack.head
  have hkept : g.owned = none := by
    cases hstack with
    | main _ _ _ howned => exact howned
    | «import» _ hne => exact absurd rfl hne
  obtain ⟨k, hk⟩ := exists_bounded hc.wellFormed hroot.live
  refine ⟨[k], ⟨?_, fun f hf => ?_, fun f hf => ?_⟩⟩
  · rw [hframes]
    refine .cons (fun r hr => ?_) .nil
    rw [hstack.found] at hr
    cases hr
    exact hk
  · rw [hframes, List.mem_singleton] at hf
    rw [hf, hloops]
    exact fun l hl => absurd hl List.not_mem_nil
  · rw [hframes, List.mem_singleton] at hf
    rw [hf]
    exact hkept

/-! ## Pulls -/

/-- The result of pulling until the end: the sinks that were handed out, or the error that came up. -/
def conclusion (ss : List Sink) (e : Option Error) (w : Walk) : Except Error (List Sink) × Walk :=
  (match e with
    | none => .ok ss
    | some e => .error e, { w with phase := .done })

/-- The rest of `pullAll`, in the middle of a pull that has `m` rounds left. -/
def pullRest (o : Options) (fuel n m : Nat) (w : Walk) : Except Error (List Sink) × Walk :=
  match Action.outcome (rounds o m) w with
  | (.error e, w) => (.error e, { w with phase := .done })
  | (.ok none, w) => (.ok [], { w with phase := .done })
  | (.ok (some s), w) =>
    match pullAll o fuel n w with
    | (.ok ss, w) => (.ok (s :: ss), w)
    | (.error e, w) => (.error e, w)

section

variable {fuel n m : Nat}

theorem pullAll_succ (h : w.phase = .running) : pullAll o fuel (n + 1) w = pullRest o fuel n fuel w := by
  unfold pullAll pull pullRest
  simp only [h]
  rcases Action.outcome (rounds o fuel) w with ⟨_ | _ | s, w'⟩ <;> rfl

/-- What a pull does behind a round, with `m` rounds left. -/
def proceed (o : Options) (m : Nat) : Progress → Action Walk (Option Sink)
  | .goOn => rounds o m
  | .yield s => pure (some s)
  | .finished => pure none

theorem outcome_rounds_succ {progress : Progress} (h : round o w = .ok progress w') :
    Action.outcome (rounds o (m + 1)) w = Action.outcome (proceed o m progress) w' := by
  have hround : Action.outcome (round o) w = (.ok progress, w') := by
    unfold Action.outcome
    rw [h]
  rw [rounds, Action.outcome_bind, hround]
  cases progress <;> rfl

/-- With rounds and pulls enough, pulling until the end leads to where the walk ends. -/
theorem pullRest_of_ends {s : Setup} {ss : List Sink} {e : Option Error} (hw : Reached o s w)
    (h : Ends o w ss e w') :
    ∃ N, ∀ fuel n m, N ≤ fuel → N ≤ n → N ≤ m → pullRest o fuel n m w = conclusion ss e w' := by
  induction h with
  | finished h =>
    refine ⟨1, fun fuel n m _ _ hm => ?_⟩
    obtain ⟨m, rfl⟩ := Nat.exists_eq_add_of_le' hm
    unfold pullRest
    rw [outcome_rounds_succ h]
    rfl
  | @failed w w' e h =>
    refine ⟨1, fun fuel n m _ _ hm => ?_⟩
    obtain ⟨m, rfl⟩ := Nat.exists_eq_add_of_le' hm
    have hround : Action.outcome (round o) w = (.error e, w') := by
      unfold Action.outcome
      rw [h]
    unfold pullRest rounds
    rw [Action.outcome_bind, hround]
    rfl
  | @goOn w w₁ w' ss e h _ ih =>
    obtain ⟨N, hN⟩ := ih (.round hw h)
    refine ⟨N + 1, fun fuel n m hf hn hm => ?_⟩
    obtain ⟨m, rfl⟩ := Nat.exists_eq_add_of_le' (Nat.le_trans (Nat.le_add_left 1 N) hm)
    rw [← hN fuel n m (by omega) (by omega) (by omega)]
    unfold pullRest
    rw [outcome_rounds_succ h]
    rfl
  | @yield w w₁ w' s ss e h _ ih =>
    obtain ⟨N, hN⟩ := ih (.round hw h)
    obtain ⟨_, hc⟩ := (Reached.round hw h).coherent
    refine ⟨N + 1, fun fuel n m hf hn hm => ?_⟩
    obtain ⟨m, rfl⟩ := Nat.exists_eq_add_of_le' (Nat.le_trans (Nat.le_add_left 1 N) hm)
    obtain ⟨n, rfl⟩ := Nat.exists_eq_add_of_le' (Nat.le_trans (Nat.le_add_left 1 N) hn)
    unfold pullRest
    rw [outcome_rounds_succ h]
    change (match pullAll o fuel (n + 1) w₁ with
      | (.ok ss, w) => (.ok (s :: ss), w)
      | (.error e, w) => (.error e, w) : Except Error (List Sink) × Walk) = _
    rw [pullAll_succ hc.phase, hN fuel n fuel (by omega) (by omega) (by omega)]
    cases e <;> rfl

end

/-- What becomes of a walk: it cannot begin, or it begins and ends. -/
inductive Concludes (o : Options) (s : Setup) : Except Error (List Sink) × Walk → Prop
  | unstarted {e : Error} {w : Walk} (h : start o ⟨0, s.main.path⟩ (begin s) = .error e w) :
      Concludes o s (conclusion [] (some e) w)
  | ended {w w' : Walk} {ss : List Sink} {e : Option Error} (h : start o ⟨0, s.main.path⟩ (begin s) = .ok () w)
      (ends : Ends o w ss e w') : Concludes o s (conclusion ss e w')

/-- With rounds and pulls enough, pulling leads to what becomes of the walk. -/
theorem Concludes.pullAll {s : Setup} {result : Except Error (List Sink) × Walk} (h : Concludes o s result) :
    ∃ N, ∀ fuel n, N ≤ fuel → N ≤ n → Walk.pullAll o fuel n (begin s) = result := by
  have hphase : (begin s).phase = .ready ⟨0, s.main.path⟩ := rfl
  cases h with
  | @unstarted e w h =>
    refine ⟨1, fun fuel n _ hn => ?_⟩
    obtain ⟨n, rfl⟩ := Nat.exists_eq_add_of_le' hn
    have hstart : Action.outcome (start o ⟨0, s.main.path⟩) (begin s) = (.error e, w) := by
      unfold Action.outcome
      rw [h]
    unfold Walk.pullAll pull
    simp only [hphase]
    rw [Action.outcome_bind, hstart]
    rfl
  | @ended w w' ss e h hends =>
    obtain ⟨N, hN⟩ := pullRest_of_ends (.start h) hends
    refine ⟨N + 1, fun fuel n hf hn => ?_⟩
    obtain ⟨n, rfl⟩ := Nat.exists_eq_add_of_le' (Nat.le_trans (Nat.le_add_left 1 N) hn)
    have hstart : Action.outcome (start o ⟨0, s.main.path⟩) (begin s) = (.ok (), w) := by
      unfold Action.outcome
      rw [h]
    rw [← hN fuel n fuel (by omega) (by omega) (by omega)]
    unfold Walk.pullAll pull pullRest
    simp only [hphase]
    rw [Action.outcome_bind, hstart]
    dsimp only
    rcases Action.outcome (rounds o fuel) w with ⟨_ | _ | s, w'⟩ <;> rfl

/-- The next `n` rounds succeed, they read no document on demand, and behind them no document is left. -/
def calm (o : Options) : Nat → Walk → Bool
  | 0, w => w.frames.isEmpty
  | n + 1, w =>
    (Action.succeeds (rotate o w) fun _ w => w.frames.head?.all fun f => (takeRun f).all fun (r, _) =>
      r.next.all fun node =>
        w.space.tree.name node != "import" || w.space.tree.attr? node "type" != some "dynamic")
      && Action.succeeds (round o w) fun _ w => calm o n w

theorem frames_of_round {progress : Progress} (hf : w.frames = []) (h : round o w = .ok progress w') :
    w'.frames = [] := by
  rw [round_of_no_frames hf, finish, Action.get_bind_eq_ok] at h
  cases hs : w.sink with
  | none =>
    simp only [hs] at h
    obtain ⟨-, rfl⟩ := Action.pure_eq_ok.mp h
    exact hf
  | some s =>
    simp only [hs] at h
    rw [Action.set_bind_eq_ok] at h
    obtain ⟨-, rfl⟩ := Action.pure_eq_ok.mp h
    rw [keep_rest]
    exact hf

/-- A walk that is calm from its beginning on is calm wherever it comes. -/
theorem Reached.exists_calm {s : Setup} {n : Nat}
    (h : ∀ w, Walk.start o ⟨0, s.main.path⟩ (begin s) = .ok () w → calm o n w = true) (hw : Reached o s w) :
    ∃ n, calm o n w = true := by
  induction hw with
  | start hs => exact ⟨n, h _ hs⟩
  | @round w w' progress _ hr ih =>
    obtain ⟨n, hn⟩ := ih
    cases n with
    | zero =>
      refine ⟨0, ?_⟩
      unfold calm at hn ⊢
      rw [List.isEmpty_iff] at hn ⊢
      exact frames_of_round hn hr
    | succ n =>
      unfold calm at hn
      obtain ⟨_, w₁, h₁, hn₁⟩ := Action.succeeds_iff.mp (Bool.and_eq_true_iff.mp hn).2
      rw [hr] at h₁
      cases h₁
      exact ⟨n, hn₁⟩

/-- In a calm walk, each change of output is made. -/
theorem exists_rotate_of_calm {n : Nat} (h : calm o n w = true) : ∃ w', rotate o w = .ok () w' := by
  cases n with
  | zero =>
    unfold calm at h
    refine ⟨w, ?_⟩
    rw [rotate, Action.get_bind, List.isEmpty_iff.mp h]
    cases w.rotation <;> rfl
  | succ n =>
    unfold calm at h
    obtain ⟨_, w', hr, -⟩ := Action.succeeds_iff.mp (Bool.and_eq_true_iff.mp h).1
    exact ⟨w', hr⟩

end Stencil.Walk
