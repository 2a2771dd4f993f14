/-
  Replacing the static imports of a document.

  The documents that are put in are read from the outside in, and put in from the inside out.  While
  they wait (`Pending`), an import that is put in earlier never stands around one that is put in later,
  and neither does its document: so no import is given up with what another one is cleared of, and each
  still lives when its turn comes.

  With this order, the work leaves other documents alone (`resolved`).
-/
import Stencil.Proofs.Import.Rules

set_option autoImplicit false

namespace Stencil.Import

open Stencil.Tree (Under Closed Keeps Upward KeepsParents Grafted)

variable {t t' t₁ t₂ : Tree} {P S : NodeId → Prop} {node root : NodeId} {s : Splice}
  {ss found : List Splice} {d d' : Desk} {o : Options} {load : Loader} {origin : Option String}

/-! ## Putting one document in -/

/-- `t'` is `t` after changes that leave the parents in `S` and the nodes of `P` alone. -/
structure Spared (S P : NodeId → Prop) (t t' : Tree) : Prop where
  wellFormed : t'.WellFormed
  parents : KeepsParents S t t'
  keeps : Keeps P t t'

theorem Spared.trans (h : Spared S P t t₁) (h' : Spared S P t₁ t₂) : Spared S P t t₂ :=
  ⟨h'.wellFormed, h.parents.trans h'.parents, h.keeps.trans h'.keeps⟩

theorem spared_modify (h : t.WellFormed) (hs : Upward t S) (hc : Closed t P) {id : NodeId}
    (hid : ¬ P id) {f : Node → Node} (hch : ∀ x, (f x).children = x.children)
    (hp : ∀ x, (f x).parent = x.parent) : Spared S P t (t.modify id f) :=
  ⟨h.modify hch hp id, hs.keepsParents_modify hp, hc.keeps_modify hid f⟩

/-- The nodes that putting a document in leaves where they stand. -/
def Aside (t : Tree) (node root n : NodeId) : Prop :=
  t.Live n ∧ ¬ Under t root n ∧ (n = node ∨ ¬ Under t node n)

theorem upward_aside (h : t.WellFormed) : Upward t (Aside t node root) where
  live := fun _ hn => hn.1
  up := by
    rintro n p ⟨-, hr, hn⟩ hp
    refine ⟨(h.live_of_parent hp).2, fun hu => hr (.child hp hu), .inr ?_⟩
    rcases hn with rfl | hn
    · exact h.not_under_parent hp
    · exact fun hu => hn (.child hp hu)

/-- With a root that stays, the nodes aside are still closed towards the roots. -/
theorem upward_aside_root (h : t.WellFormed) (hl : t.Live root) (hr : t.parent? root = none) :
    Upward t fun n => n = root ∨ Aside t node root n where
  live := by
    rintro n (rfl | hn)
    · exact hl
    · exact hn.1
  up := by
    rintro n p (rfl | hn) hp
    · rw [hr] at hp
      cases hp
    · exact .inr ((upward_aside h).up n p hn hp)

/-- A child of a root is moved below another node, which does not come to stand below that root. -/
theorem not_under_move {c : NodeId} (h : t.WellFormed) (hn : t.Live node) (hout : ¬ Under t root node)
    (hpc : t.parent? c = some root) : ¬ Under t c node ∧ ¬ Under (t.appendChild node c) root node := by
  have hcn : ¬ Under t c node := fun hu => hout ((Tree.under_of_parent hpc).trans hu)
  -- what stands around `node` stays where it is
  have hup : Upward t (fun m => Under t m node) :=
    ⟨fun m hm => h.live_of_under' hn hm, fun m p hm hp => (Tree.under_of_parent hp).trans hm⟩
  refine ⟨hcn, ?_⟩
  rw [hup.under (hup.keepsParents_appendChild (p := node) h (h.live_of_parent hpc).1 hcn) Under.self]
  exact hout

/-- The children of a root are moved below another node, one after another. -/
theorem spared_move {cs : List NodeId} (h : t.WellFormed) (hn : t.Live node)
    (hout : ¬ Under t root node) (hcs : ∀ c ∈ cs, t.parent? c = some root) (hnd : cs.Nodup)
    (hs : Upward t S) (hcS : ∀ c ∈ cs, ¬ S c) (hc : Closed t P) (hnP : ¬ P node) (hrP : ¬ P root) :
    Spared S P t (cs.foldl (fun t c => t.appendChild node c) t) := by
  induction cs generalizing t with
  | nil => exact ⟨h, fun n hn => ⟨hs.live n hn, rfl⟩, .refl hc⟩
  | cons c cs ih =>
    have hpc := hcs c List.mem_cons_self
    have hlc := (h.live_of_parent hpc).1
    obtain ⟨hnc, hnd⟩ := List.nodup_cons.mp hnd
    obtain ⟨hcn, hout'⟩ := not_under_move h hn hout hpc
    have hcP : ¬ P c := fun hP => hrP (hc.up c root hP hpc)
    have hstep : Spared S P t (t.appendChild node c) :=
      ⟨h.appendChild hlc hn hcn, hs.keepsParents_appendChild h hlc (hcS c List.mem_cons_self),
        hc.keeps_appendChild h hcP hnP⟩
    refine hstep.trans (ih hstep.wellFormed (Tree.live_appendChild.mpr hn) hout' ?_ hnd
      (hstep.parents.upward hs) (fun c' hc' => hcS c' (List.mem_cons_of_mem _ hc'))
      (hstep.keeps.closed hc h hstep.wellFormed))
    intro c' hc'
    rw [h.parent?_appendChild hlc, if_neg fun he : c' = c => hnc (he ▸ hc')]
    exact hcs c' (List.mem_cons_of_mem _ hc')

/-- A document is put in the place of an import: the nodes that stand around it stay, and closed sets
    that neither has a part of are left alone. -/
theorem spared_spliceInto (h : t.WellFormed) (hn : t.Live node) (hl : t.Live root)
    (hr : t.parent? root = none) (hout : ¬ Under t root node) (hc : Closed t P) (hnP : ¬ P node)
    (hrP : ¬ P root) : Spared (Aside t node root) P t (spliceInto t node root) := by
  -- as long as the document's root is needed, it is followed, too
  let S : NodeId → Prop := fun n => n = root ∨ Aside t node root n
  have hS : Upward t S := upward_aside_root h hl hr
  have haside : Aside t node root node := ⟨hn, hout, .inl rfl⟩
  -- the import is cleared
  have hd := h.dropped (h.children_nodup node) fun c hc => h.mem_children.mp hc
  have hclear : Spared S P t ((t.children node).foldl Tree.release t) := by
    refine ⟨hd.wellFormed, hS.keepsParents_dropped hd ?_, hc.keeps_dropped h hd ?_⟩
    · rintro c hm (rfl | ⟨-, -, hcn⟩)
      · rw [h.mem_children, hr] at hm
        cases hm
      · have hp := h.mem_children.mp hm
        rcases hcn with rfl | hcn
        · exact h.parent_ne hp rfl
        · exact hcn (Tree.under_of_parent hp)
    · exact fun c hm hP => hnP (hc.up c node hP (h.mem_children.mp hm))
  -- it loses its text and its attributes
  have hbare : Spared S P t
      ((((t.children node).foldl Tree.release t).setText node "").retainAttrs node ["name"]) := by
    have h₁ := hclear.trans (spared_modify hclear.wellFormed (hclear.parents.upward hS)
      (hclear.keeps.closed hc h hclear.wellFormed) hnP (f := fun n => { n with text := "" })
      (fun _ => rfl) (fun _ => rfl))
    exact h₁.trans (spared_modify h₁.wellFormed (h₁.parents.upward hS)
      (h₁.keeps.closed hc h h₁.wellFormed) hnP (fun _ => rfl) (fun _ => rfl))
  -- it takes over the content of the document
  unfold spliceInto
  dsimp only
  generalize (((t.children node).foldl Tree.release t).setText node "").retainAttrs node ["name"] = t₁
    at hbare
  have hcP₁ := hbare.keeps.closed hc h hbare.wellFormed
  have hS₁ := hbare.parents.upward hS
  have hfill : Spared S P t ((t₁.children root).foldl (fun t c => t.appendChild node c) t₁) := by
    refine hbare.trans (spared_move hbare.wellFormed (hbare.parents node (.inr haside)).1 ?_
      (fun c hm => hbare.wellFormed.mem_children.mp hm) (hbare.wellFormed.children_nodup root) hS₁ ?_
      hcP₁ hnP hrP)
    · rw [hS.under hbare.parents (Or.inr haside)]
      exact hout
    · intro c hm hSc
      have hp : t.parent? c = some root := by
        rw [← (hbare.parents c hSc).2]
        exact hbare.wellFormed.mem_children.mp hm
      rcases hSc with rfl | ⟨-, hnot, -⟩
      · rw [hr] at hp
        cases hp
      · exact hnot (Tree.under_of_parent hp)
  -- the empty root is given up
  generalize (t₁.children root).foldl (fun t c => t.appendChild node c) t₁ = t₂ at hfill
  have hA := (hfill.parents.mono (Q := Aside t node root) fun n hn => .inr hn)
  have hup := hA.upward (upward_aside h)
  have hcP₂ := hfill.keeps.closed hc h hfill.wellFormed
  have hnot : ¬ Aside t node root root := fun ha => ha.2.1 .self
  have hlr := (hfill.parents root (.inl rfl)).1
  have hrel : Spared (Aside t node root) P t (t₂.release root) :=
    ⟨(hfill.wellFormed.released hlr).wellFormed,
      hA.trans (hup.keepsParents_release hfill.wellFormed hlr hnot),
      hfill.keeps.trans (hcP₂.keeps_release hfill.wellFormed hlr hrP)⟩
  exact hrel.trans (spared_modify hrel.wellFormed (hrel.parents.upward (upward_aside h))
    (hrel.keeps.closed hc h hrel.wellFormed) hnP (fun _ => rfl) (fun _ => rfl))

/-! ## Putting all documents in -/

/-- What is still to be replaced, the next one first. -/
structure Pending (t : Tree) (ss : List Splice) : Prop where
  live_node : ∀ s ∈ ss, t.Live s.node
  live_root : ∀ s ∈ ss, t.Live s.root
  parent?_root : ∀ s ∈ ss, t.parent? s.root = none
  outside : ∀ s ∈ ss, ¬ Under t s.root s.node
  order : ss.Pairwise fun s s' =>
    ¬ Under t s.node s'.node ∧ ¬ Under t s.root s'.node ∧ s.root ≠ s'.root

theorem Pending.of_keepsParents (hp : Pending t ss) (hs : Upward t S) (hk : KeepsParents S t t')
    (hn : ∀ s ∈ ss, S s.node) (hr : ∀ s ∈ ss, S s.root) : Pending t' ss where
  live_node := fun s hm => (hk s.node (hn s hm)).1
  live_root := fun s hm => (hk s.root (hr s hm)).1
  parent?_root := fun s hm => (hk s.root (hr s hm)).2.trans (hp.parent?_root s hm)
  outside := by
    intro s hm
    rw [hs.under hk (hn s hm)]
    exact hp.outside s hm
  order := by
    refine hp.order.imp_of_mem fun {s s'} _ hm' h => ?_
    rw [hs.under hk (hn s' hm'), hs.under hk (hn s' hm')]
    exact h

/-- The nodes of all other documents. -/
def Beyond (t : Tree) (root n : NodeId) : Prop := t.Live n ∧ ¬ Under t root n

theorem closed_beyond (h : t.WellFormed) (hr : t.parent? root = none) :
    Closed t (Beyond t root) where
  live := fun _ hn => hn.1
  up := fun _ _ hn hp => ⟨(h.live_of_parent hp).2, fun hu => hn.2 (.child hp hu)⟩
  down := by
    intro p c hp hc
    refine ⟨(h.live_of_parent hc).1, fun hu => hp.2 (hu.of_parent hc ?_)⟩
    rintro rfl
    rw [hr] at hc
    cases hc

/-- The rules of an import leave what is pending as it is. -/
theorem Pending.edited (h : t.WellFormed) (hp : Pending t (s :: ss))
    (he : Edited (Beyond t s.root) t t') : Pending t' (s :: ss) := by
  have hr := hp.parent?_root s List.mem_cons_self
  have hB := closed_beyond h hr
  have hS : Upward t fun n => n = s.root ∨ Beyond t s.root n := by
    refine ⟨?_, ?_⟩
    · rintro n (rfl | hn)
      · exact hp.live_root s List.mem_cons_self
      · exact hn.1
    · rintro n p (rfl | hn) hnp
      · rw [hr] at hnp
        cases hnp
      · exact .inr (hB.up n p hn hnp)
  have hk : KeepsParents (fun n => n = s.root ∨ Beyond t s.root n) t t' := by
    rintro n (rfl | hn)
    · exact ⟨he.live _ (hp.live_root s List.mem_cons_self), (he.root _ hr).trans hr.symm⟩
    · exact ⟨(he.keeps n hn).1, he.keeps.parent? hn⟩
  have horder := (List.pairwise_cons.mp hp.order).1
  refine hp.of_keepsParents hS hk ?_ ?_
  · intro s' hm
    refine .inr ⟨hp.live_node s' hm, ?_⟩
    rcases List.mem_cons.mp hm with rfl | hm'
    · exact hp.outside s' hm
    · exact (horder s' hm').2.1
  · intro s' hm
    rcases List.mem_cons.mp hm with rfl | hm'
    · exact .inl rfl
    · refine .inr ⟨hp.live_root s' hm, fun hu => (horder s' hm').2.2 ?_⟩
      exact (hu.eq_of_root (hp.parent?_root s' hm)).symm

/-- A root that does not go away stands aside. -/
theorem aside_of_root {n : NodeId} (hl : t.Live n) (hn : t.parent? n = none) (hne : root ≠ n) :
    Aside t node root n := by
  refine ⟨hl, fun hu => hne (hu.eq_of_root hn).symm, ?_⟩
  by_cases hu : Under t node n
  · exact .inl (hu.eq_of_root hn)
  · exact .inr hu

/-- What is pending behind an import stays pending when the import is replaced. -/
theorem Pending.spliced (h : t.WellFormed) (hp : Pending t (s :: ss)) : Pending (spliceInto t s.node s.root) ss := by
  have hs := spared_spliceInto h (hp.live_node s List.mem_cons_self) (hp.live_root s List.mem_cons_self)
    (hp.parent?_root s List.mem_cons_self) (hp.outside s List.mem_cons_self) Tree.closed_none id id
  obtain ⟨horder, hrest⟩ := List.pairwise_cons.mp hp.order
  have hp' : Pending t ss :=
    ⟨fun s' hm => hp.live_node s' (List.mem_cons_of_mem _ hm),
      fun s' hm => hp.live_root s' (List.mem_cons_of_mem _ hm),
      fun s' hm => hp.parent?_root s' (List.mem_cons_of_mem _ hm),
      fun s' hm => hp.outside s' (List.mem_cons_of_mem _ hm), hrest⟩
  refine hp'.of_keepsParents (upward_aside h) hs.parents ?_ ?_
  · exact fun s' hm => ⟨hp'.live_node s' hm, (horder s' hm).2.1, .inr (horder s' hm).1⟩
  · exact fun s' hm =>
      aside_of_root (hp'.live_root s' hm) (hp'.parent?_root s' hm) (horder s' hm).2.2

/-- All that is pending is put in: a root that does not wait itself stays a root. -/
theorem spared_spliceAll (hwf : d.tree.WellFormed) (hp : Pending d.tree ss) (hl : d.tree.Live root)
    (hr : d.tree.parent? root = none) (hne : ∀ s ∈ ss, s.root ≠ root) (hc : Closed d.tree P)
    (hP : ∀ s ∈ ss, ¬ P s.node ∧ ¬ P s.root) (h : spliceAll o load ss d = .ok () d') :
    Spared (fun n => n = root) P d.tree d'.tree := by
  induction ss generalizing d with
  | nil =>
    obtain ⟨-, rfl⟩ := Action.pure_eq_ok.mp h
    refine ⟨hwf, ?_, .refl hc⟩
    rintro n rfl
    exact ⟨hl, rfl⟩
  | cons s ss ih =>
    obtain ⟨_, d₁, h₁, h⟩ := Action.bind_eq_ok.mp h
    obtain ⟨hsn, hsr⟩ := hP s List.mem_cons_self
    have hrs := hp.parent?_root s List.mem_cons_self
    -- the rules
    have he := edited_edit hwf hc hrs hsr h₁
    have hp₁ := hp.edited hwf (edited_edit hwf (closed_beyond hwf hrs) hrs (fun hb => hb.2 .self) h₁)
    have hl₁ := he.live root hl
    have hr₁ := he.root root hr
    have hc₁ := he.keeps.closed hc hwf he.wellFormed
    -- the document takes the place of the import
    rw [modifyTree, Action.modify_bind_eq_ok] at h
    have hs := spared_spliceInto he.wellFormed (hp₁.live_node s List.mem_cons_self)
      (hp₁.live_root s List.mem_cons_self) (hp₁.parent?_root s List.mem_cons_self)
      (hp₁.outside s List.mem_cons_self) hc₁ hsn hsr
    have hkr := hs.parents root (aside_of_root hl₁ hr₁ (hne s List.mem_cons_self))
    have hrest := ih (d := { d₁ with tree := spliceInto d₁.tree s.node s.root }) hs.wellFormed
      (hp₁.spliced he.wellFormed) hkr.1 (hkr.2.trans hr₁) (fun s' hm => hne s' (List.mem_cons_of_mem _ hm))
      (hs.keeps.closed hc₁ he.wellFormed hs.wellFormed)
      (fun s' hm => hP s' (List.mem_cons_of_mem _ hm)) h
    refine ⟨hrest.wellFormed, ?_, he.keeps.trans (hs.keeps.trans hrest.keeps)⟩
    rintro n rfl
    obtain ⟨hln, hpn⟩ := hrest.parents n rfl
    exact ⟨hln, hpn.trans (hkr.2.trans (hr₁.trans hr.symm))⟩

/-! ## Reading the documents -/

theorem readTargets_cons {chain : List String} {nodes : List NodeId} {out : List (Splice × Unread)}
    (h : readTargets o load origin chain (node :: nodes) d = .ok out d') :
    ∃ p d₁ more, place o load node origin d = .ok p d₁
      ∧ readTargets o load origin chain nodes d₁ = .ok more d'
      ∧ out = (⟨node, p.root, origin⟩, ⟨p, chain⟩) :: more := by
  unfold readTargets at h
  obtain ⟨p, d₁, h₁, h⟩ := Action.bind_eq_ok.mp h
  dsimp only at h
  have hrest : ∀ {x : Desk}, ((readTargets o load origin chain nodes >>= fun more =>
      pure ((⟨node, p.root, origin⟩, ⟨p, chain⟩) :: more)) : Action Desk _) x = .ok out d' →
      ∃ more, readTargets o load origin chain nodes x = .ok more d'
        ∧ out = (⟨node, p.root, origin⟩, ⟨p, chain⟩) :: more := by
    intro x hx
    obtain ⟨more, d₂, h₂, hx⟩ := Action.bind_eq_ok.mp hx
    obtain ⟨rfl, rfl⟩ := Action.pure_eq_ok.mp hx
    exact ⟨more, h₂, rfl⟩
  cases hp : p.path with
  | none =>
    simp only [hp] at h
    obtain ⟨more, hm, ho⟩ := hrest h
    exact ⟨p, d₁, more, h₁, hm, ho⟩
  | some path =>
    simp only [hp] at h
    split at h
    · rw [Action.get_bind_eq_ok] at h
      obtain ⟨_, _, hf, -⟩ := Action.bind_eq_ok.mp h
      exact (Action.failAt_eq_ok.mp hf).elim
    · obtain ⟨more, hm, ho⟩ := hrest h
      exact ⟨p, d₁, more, h₁, hm, ho⟩

/-- What reading the targets of imports does: each becomes a document of its own. -/
structure Fetched (t : Tree) (nodes : List NodeId) (out : List (Splice × Unread)) (t' : Tree) :
    Prop where
  wellFormed : t'.WellFormed
  keeps : Keeps t.Live t t'
  nodes : out.map (fun x => x.1.node) = nodes
  fresh : ∀ x ∈ out, ¬ t.Live x.1.root
  live_root : ∀ x ∈ out, t'.Live x.1.root
  parent?_root : ∀ x ∈ out, t'.parent? x.1.root = none
  unread : ∀ x ∈ out, x.2.document.root = x.1.root
  distinct : out.Pairwise fun x y => x.1.root ≠ y.1.root

theorem fetched_readTargets {chain : List String} {nodes : List NodeId}
    {out : List (Splice × Unread)} (hwf : d.tree.WellFormed)
    (h : readTargets o load origin chain nodes d = .ok out d') :
    Fetched d.tree nodes out d'.tree := by
  induction nodes generalizing d out with
  | nil =>
    obtain ⟨rfl, rfl⟩ := Action.pure_eq_ok.mp h
    exact ⟨hwf, fun n hn => ⟨hn, rfl⟩, rfl, fun x hx => (nomatch hx), fun x hx => (nomatch hx),
      fun x hx => (nomatch hx), fun x hx => (nomatch hx), .nil⟩
  | cons node nodes ih =>
    obtain ⟨p, d₁, more, h₁, h₂, rfl⟩ := readTargets_cons h
    obtain ⟨e, hg⟩ := grafted_place hwf h₁
    have hf := ih hg.wellFormed h₂
    have hroot := hf.keeps p.root hg.live_root
    refine ⟨hf.wellFormed, ?_, ?_, ?_, ?_, ?_, ?_, ?_⟩
    · intro n hn
      obtain ⟨hl, hnode⟩ := hf.keeps n (hg.live n hn)
      exact ⟨hl, hnode.trans (hg.node n hn)⟩
    · rw [List.map_cons, hf.nodes]
    · rintro x (_ | ⟨_, hx⟩)
      · exact hg.fresh
      · exact fun hl => hf.fresh x hx (hg.live _ hl)
    · rintro x (_ | ⟨_, hx⟩)
      · exact hroot.1
      · exact hf.live_root x hx
    · rintro x (_ | ⟨_, hx⟩)
      · exact (hf.keeps.parent? hg.live_root).trans hg.parent?_root
      · exact hf.parent?_root x hx
    · rintro x (_ | ⟨_, hx⟩)
      · rfl
      · exact hf.unread x hx
    · refine List.pairwise_cons.mpr ⟨fun x hx he => ?_, hf.distinct⟩
      exact hf.fresh x hx (he ▸ hg.live_root)

/-- What lives stands where it stands, and not in a document that is new. -/
theorem upward_live (h : t.WellFormed) : Upward t t.Live :=
  ⟨fun _ hn => hn, fun _ _ _ hp => (h.live_of_parent hp).2⟩

theorem Fetched.under {nodes : List NodeId} {out : List (Splice × Unread)} {a n : NodeId}
    (hf : Fetched t nodes out t') (hwf : t.WellFormed) (hn : t.Live n) :
    Under t' a n ↔ Under t a n :=
  (upward_live hwf).under (fun m hm => ⟨(hf.keeps m hm).1, hf.keeps.parent? hm⟩) hn

theorem Fetched.not_under {nodes : List NodeId} {out : List (Splice × Unread)} {n : NodeId}
    {x : Splice × Unread} (hf : Fetched t nodes out t') (hwf : t.WellFormed) (hx : x ∈ out)
    (hn : t.Live n) : ¬ Under t' x.1.root n := by
  rw [hf.under hwf hn]
  exact fun hu => hf.fresh x hx (hwf.live_of_under' hn hu)

/-- Documents that are still to be looked through for imports: no import that has been found stands in
    one of them. -/
structure Waiting (t : Tree) (us : List Unread) (found : List Splice) : Prop where
  live : ∀ u ∈ us, t.Live u.document.root
  root : ∀ u ∈ us, t.parent? u.document.root = none
  distinct : us.Pairwise fun u v => u.document.root ≠ v.document.root
  apart : ∀ u ∈ us, ∀ s ∈ found, ¬ Under t u.document.root s.node

/-- The imports of one document are found, and what they name becomes documents to be looked
    through. -/
theorem pending_fetched {u : Unread} {us : List Unread} {nodes : List NodeId}
    {out : List (Splice × Unread)} (hwf : t.WellFormed) (hp : Pending t found)
    (hw : Waiting t (u :: us) found) (hnodes : nodes.Pairwise fun m n => ¬ Under t n m)
    (hin : ∀ n ∈ nodes, Under t u.document.root n) (hf : Fetched t nodes out t') :
    Pending t' ((out.map Prod.fst).reverse ++ found)
      ∧ Waiting t' ((out.map Prod.snd).reverse ++ us) ((out.map Prod.fst).reverse ++ found) := by
  have hlu := hw.live u List.mem_cons_self
  have hnode : ∀ x ∈ out, x.1.node ∈ nodes := by
    intro x hx
    rw [← hf.nodes]
    exact List.mem_map_of_mem hx
  have hlive : ∀ x ∈ out, t.Live x.1.node := fun x hx => hwf.live_of_under hlu (hin _ (hnode x hx))
  have hnew : ∀ s ∈ (out.map Prod.fst).reverse, ∃ x ∈ out, x.1 = s :=
    fun s hs => List.mem_map.mp (List.mem_reverse.mp hs)
  have hmore : ∀ v ∈ (out.map Prod.snd).reverse, ∃ x ∈ out, x.2 = v :=
    fun v hv => List.mem_map.mp (List.mem_reverse.mp hv)
  obtain ⟨hdu, hdus⟩ := List.pairwise_cons.mp hw.distinct
  constructor
  · refine ⟨?_, ?_, ?_, ?_, ?_⟩
    · intro s hs
      rcases List.mem_append.mp hs with hs | hs
      · obtain ⟨x, hx, rfl⟩ := hnew s hs
        exact (hf.keeps _ (hlive x hx)).1
      · exact (hf.keeps _ (hp.live_node s hs)).1
    · intro s hs
      rcases List.mem_append.mp hs with hs | hs
      · obtain ⟨x, hx, rfl⟩ := hnew s hs
        exact hf.live_root x hx
      · exact (hf.keeps _ (hp.live_root s hs)).1
    · intro s hs
      rcases List.mem_append.mp hs with hs | hs
      · obtain ⟨x, hx, rfl⟩ := hnew s hs
        exact hf.parent?_root x hx
      · exact (hf.keeps.parent? (hp.live_root s hs)).trans (hp.parent?_root s hs)
    · intro s hs
      rcases List.mem_append.mp hs with hs | hs
      · obtain ⟨x, hx, rfl⟩ := hnew s hs
        exact hf.not_under hwf hx (hlive x hx)
      · rw [hf.under hwf (hp.live_node s hs)]
        exact hp.outside s hs
    · refine List.pairwise_append.mpr ⟨?_, ?_, ?_⟩
      · rw [List.pairwise_reverse, List.pairwise_map]
        have hord : out.Pairwise fun x y => ¬ Under t y.1.node x.1.node := by
          rw [← hf.nodes, List.pairwise_map] at hnodes
          exact hnodes
        refine (hord.and hf.distinct).imp_of_mem ?_
        rintro x y hx hy ⟨hu, hne⟩
        rw [hf.under hwf (hlive x hx)]
        exact ⟨hu, hf.not_under hwf hy (hlive x hx), hne.symm⟩
      · refine hp.order.imp_of_mem fun {s s'} _ hs' h => ?_
        rw [hf.under hwf (hp.live_node s' hs'), hf.under hwf (hp.live_node s' hs')]
        exact h
      · -- what was found before stands neither in this document nor in a new one
        intro s hs s' hs'
        obtain ⟨x, hx, rfl⟩ := hnew s hs
        have hl := hp.live_node s' hs'
        rw [hf.under hwf hl]
        refine ⟨fun hu => ?_, hf.not_under hwf hx hl, ?_⟩
        · exact hw.apart u List.mem_cons_self s' hs' ((hin _ (hnode x hx)).trans hu)
        · exact fun he => hf.fresh x hx (he ▸ hp.live_root s' hs')
  · refine ⟨?_, ?_, ?_, ?_⟩
    · intro v hv
      rcases List.mem_append.mp hv with hv | hv
      · obtain ⟨x, hx, rfl⟩ := hmore v hv
        rw [hf.unread x hx]
        exact hf.live_root x hx
      · exact (hf.keeps _ (hw.live v (List.mem_cons_of_mem _ hv))).1
    · intro v hv
      rcases List.mem_append.mp hv with hv | hv
      · obtain ⟨x, hx, rfl⟩ := hmore v hv
        rw [hf.unread x hx]
        exact hf.parent?_root x hx
      · have hv' := List.mem_cons_of_mem u hv
        exact (hf.keeps.parent? (hw.live v hv')).trans (hw.root v hv')
    · refine List.pairwise_append.mpr ⟨?_, hdus, ?_⟩
      · rw [List.pairwise_reverse, List.pairwise_map]
        refine hf.distinct.imp_of_mem fun {x y} hx hy hne => ?_
        rw [hf.unread x hx, hf.unread y hy]
        exact hne.symm
      · intro v hv v' hv'
        obtain ⟨x, hx, rfl⟩ := hmore v hv
        rw [hf.unread x hx]
        exact fun he => hf.fresh x hx (he ▸ hw.live v' (List.mem_cons_of_mem _ hv'))
    · intro v hv s hs
      have hls : t.Live s.node := by
        rcases List.mem_append.mp hs with hs | hs
        · obtain ⟨x, hx, rfl⟩ := hnew s hs
          exact hlive x hx
        · exact hp.live_node s hs
      rcases List.mem_append.mp hv with hv | hv
      · obtain ⟨x, hx, rfl⟩ := hmore v hv
        rw [hf.unread x hx]
        exact hf.not_under hwf hx hls
      · have hv' := List.mem_cons_of_mem u hv
        rw [hf.under hwf hls]
        rcases List.mem_append.mp hs with hs | hs
        · obtain ⟨x, hx, rfl⟩ := hnew s hs
          exact fun hu => hdu v hv (Under.root_unique (hw.root u List.mem_cons_self) (hw.root v hv')
            (hin _ (hnode x hx)) hu)
        · exact hw.apart v hv' s hs

theorem under_of_mem_statics {n : NodeId} (hwf : t.WellFormed) (hn : n ∈ statics t root) : Under t root n := by
  rcases List.mem_cons.mp (List.mem_filter.mp hn).1 with rfl | hn
  · exact .self
  · exact (hwf.mem_descendants.mp hn).1

/-- Of two static imports of a document, the one that is listed first does not stand below the other. -/
theorem pairwise_statics (hwf : t.WellFormed) (root : NodeId) :
    (statics t root).Pairwise fun m n => ¬ Under t n m := by
  refine List.Pairwise.filter _ (List.pairwise_cons.mpr ⟨fun n hn hu => ?_, hwf.pairwise_descendants _⟩)
  obtain ⟨hun, hne⟩ := hwf.mem_descendants.mp hn
  exact hne (hwf.under_antisymm hu hun)

/-- What reading all documents keeps: the documents that were there, and that what has been found can be
    put in. -/
theorem pending_readAll {n : Nat} {us : List Unread} (hwf : d.tree.WellFormed)
    (hp : Pending d.tree found) (hw : Waiting d.tree us found) (hc : Closed d.tree P)
    (hus : ∀ u ∈ us, ¬ P u.document.root) (hfound : ∀ s ∈ found, ¬ P s.node ∧ ¬ P s.root)
    (hl : d.tree.Live root) (hne : ∀ s ∈ found, s.root ≠ root)
    (h : readAll o load n us found d = .ok ss d') :
    d'.tree.WellFormed ∧ Keeps d.tree.Live d.tree d'.tree ∧ Pending d'.tree ss
      ∧ (∀ s ∈ ss, ¬ P s.node ∧ ¬ P s.root) ∧ ∀ s ∈ ss, s.root ≠ root := by
  induction n generalizing us found d with
  | zero =>
    cases us with
    | nil =>
      obtain ⟨rfl, rfl⟩ := Action.pure_eq_ok.mp h
      exact ⟨hwf, fun n hn => ⟨hn, rfl⟩, hp, hfound, hne⟩
    | cons u us => exact (Action.fail_eq_ok.mp h).elim
  | succ n ih =>
    cases us with
    | nil =>
      obtain ⟨rfl, rfl⟩ := Action.pure_eq_ok.mp h
      exact ⟨hwf, fun n hn => ⟨hn, rfl⟩, hp, hfound, hne⟩
    | cons u us =>
      unfold readAll at h
      rw [Action.get_bind_eq_ok] at h
      obtain ⟨out, d₁, h₁, h⟩ := Action.bind_eq_ok.mp h
      have hf := fetched_readTargets hwf h₁
      have hlu := hw.live u List.mem_cons_self
      have hin : ∀ n ∈ statics d.tree u.document.root, Under d.tree u.document.root n :=
        fun n hn => under_of_mem_statics hwf hn
      obtain ⟨hp₁, hw₁⟩ := pending_fetched hwf hp hw (pairwise_statics hwf _) hin hf
      have hkeep : Keeps P d.tree d₁.tree := fun n hn => hf.keeps n (hc.live n hn)
      have hfresh : ∀ x ∈ out, ¬ P x.1.root := fun x hx hP => hf.fresh x hx (hc.live _ hP)
      have hus₁ : ∀ v ∈ (out.map Prod.snd).reverse ++ us, ¬ P v.document.root := by
        intro v hv
        rcases List.mem_append.mp hv with hv | hv
        · obtain ⟨x, hx, rfl⟩ := List.mem_map.mp (List.mem_reverse.mp hv)
          rw [hf.unread x hx]
          exact hfresh x hx
        · exact hus v (List.mem_cons_of_mem _ hv)
      have hfound₁ : ∀ s ∈ (out.map Prod.fst).reverse ++ found,
          (¬ P s.node ∧ ¬ P s.root) ∧ s.root ≠ root := by
        intro s hs
        rcases List.mem_append.mp hs with hs | hs
        · obtain ⟨x, hx, rfl⟩ := List.mem_map.mp (List.mem_reverse.mp hs)
          have hm : x.1.node ∈ out.map (fun x => x.1.node) := List.mem_map_of_mem hx
          rw [hf.nodes] at hm
          exact ⟨⟨fun hP => hus u List.mem_cons_self (hc.of_under (hin _ hm) hP), hfresh x hx⟩,
            fun he => hf.fresh x hx (he ▸ hl)⟩
        · exact ⟨hfound s hs, hne s hs⟩
      obtain ⟨hwf', hk', hrest⟩ := ih hf.wellFormed hp₁ hw₁ (hkeep.closed hc hwf hf.wellFormed) hus₁
        (fun s hs => (hfound₁ s hs).1) (hf.keeps root hl).1 (fun s hs => (hfound₁ s hs).2) h
      refine ⟨hwf', fun n hn => ?_, hrest⟩
      obtain ⟨hl', hn'⟩ := hk' n (hf.keeps n hn).1
      exact ⟨hl', hn'.trans (hf.keeps n hn).2⟩

/-- What is found when the documents that one document asks for have been read. -/
theorem pending_read {document : Placed} {k : Nat} (hwf : d.tree.WellFormed) (hl : d.tree.Live document.root)
    (hr : d.tree.parent? document.root = none) (hc : Closed d.tree P) (hP : ¬ P document.root)
    (h : readAll o load k [⟨document, []⟩] [] d = .ok ss d') :
    d'.tree.WellFormed ∧ Keeps d.tree.Live d.tree d'.tree ∧ Pending d'.tree ss
      ∧ (∀ s ∈ ss, ¬ P s.node ∧ ¬ P s.root) ∧ ∀ s ∈ ss, s.root ≠ document.root := by
  have hnone : Pending d.tree [] := ⟨by simp, by simp, by simp, by simp, .nil⟩
  have hwaits : Waiting d.tree [⟨document, []⟩] [] :=
    ⟨by simpa using hl, by simpa using hr, by simp, by simp⟩
  exact pending_readAll hwf hnone hwaits hc (by simpa using hP) (by simp) hl (by simp) h

/-- Replacing the static imports of a document leaves its root a root, and leaves alone every closed set
    that the document is no part of. -/
theorem spared_resolve {document : Placed} (hwf : d.tree.WellFormed)
    (hl : d.tree.Live document.root) (hr : d.tree.parent? document.root = none)
    (hc : Closed d.tree P) (hP : ¬ P document.root) (h : resolve o load document d = .ok () d') :
    Spared (fun n => n = document.root) P d.tree d'.tree := by
  obtain ⟨ss, d₁, h₁, h⟩ := Action.bind_eq_ok.mp h
  obtain ⟨hwf₁, hk, hp, hPs, hne⟩ := pending_read hwf hl hr hc hP h₁
  have hkP : Keeps P d.tree d₁.tree := fun n hn => hk n (hc.live n hn)
  have hs := spared_spliceAll hwf₁ hp (hk _ hl).1 ((hk.parent? hl).trans hr) hne
    (hkP.closed hc hwf hwf₁) hPs h
  refine ⟨hs.wellFormed, ?_, hkP.trans hs.keeps⟩
  rintro n rfl
  obtain ⟨hln, hpn⟩ := hs.parents _ rfl
  exact ⟨hln, hpn.trans (hk.parent? hl)⟩

end Stencil.Import
