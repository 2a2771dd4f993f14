/-
  What is known when all documents have been read.

  While documents are read, those that have been looked through are collected (`docs`).  In each of them,
  the imports that were found are all its static imports; each import has a copy of the document that it
  names, and that copy is looked through sooner or later (`Gathered`).  One round of reading keeps this
  (`Gathered.fetched`), and when nothing is left to be read, it says all about the imports that are to be
  replaced (`gathered_readAll`).
-/
import Stencil.Proofs.Import.Inlining
import Stencil.Proofs.Import.Splices

set_option autoImplicit false

namespace Stencil.Import

open Stencil.Tree (Under Closed Keeps Alike Holds Grafted)

variable {o : Options} {load : Loader} {l l' : Library} {t t' : Tree} {d d' : Desk} {node root : NodeId}
  {origin : Option String} {nodes : List NodeId} {chain : List String} {out : List (Splice × Unread)}
  {s : Splice} {ss found : List Splice} {us : List Unread} {D : Placed} {docs : List Placed}

/-! ## Targets -/

/-- The import of a splice names the document `D`, of which it has a copy. -/
def Names (o : Options) (l : Library) (t : Tree) (s : Splice) (D : Placed) : Prop :=
  ∃ name e, target t s.node = .ok name ∧ D = ⟨s.root, some (o.resolve name s.origin)⟩
    ∧ l.find? (o.resolve name s.origin) = some e ∧ Holds t s.root e

theorem Names.keeps (h : Names o l t s D) (hwf : t.WellFormed) (hwf' : t'.WellFormed)
    (hk : Keeps t.Live t t') (hl : ∀ path e, l.find? path = some e → l'.find? path = some e)
    (hn : t.Live s.node) (hr : t.Live s.root) : Names o l' t' s D := by
  obtain ⟨name, e, ht, hD, hf, hh⟩ := h
  refine ⟨name, e, ?_, hD, hl _ _ hf, ?_⟩
  · exact target_alike (hk.alike hwf hwf' (Tree.closed_live hwf)) hn ht
  · exact hh.congr hwf fun m hm => (hk m (hwf.live_of_under hr hm)).2

theorem named_place {p : Placed} (hwf : d.tree.WellFormed) (h : place o load node origin d = .ok p d') :
    d.library.Extends load d'.library
      ∧ ∃ name e, target d.tree node = .ok name ∧ p.path = some (o.resolve name origin)
        ∧ d'.library.find? (o.resolve name origin) = some e ∧ Grafted d.tree e p.root d'.tree := by
  unfold place at h
  rw [Action.get_bind_eq_ok] at h
  obtain ⟨name, hname, h⟩ := Action.ofExcept_bind_eq_ok.mp h
  obtain ⟨e, d₁, hf, h⟩ := Action.bind_eq_ok.mp h
  rw [Action.get_bind_eq_ok] at h
  dsimp only at h
  rw [Action.set_bind_eq_ok] at h
  obtain ⟨rfl, rfl⟩ := Action.pure_eq_ok.mp h
  obtain ⟨hext, hfind⟩ := extends_fetch hf
  rw [← fetch_ok hf] at hwf hname ⊢
  exact ⟨hext, name, e, hname, rfl, hfind, hwf.grafted e⟩

/-- The imports of a document name the documents that are fetched for them. -/
theorem named_readTargets (hwf : d.tree.WellFormed) (hnodes : ∀ n ∈ nodes, d.tree.Live n)
    (h : readTargets o load origin chain nodes d = .ok out d') :
    d.library.Extends load d'.library
      ∧ ∀ x ∈ out, x.1.origin = origin ∧ Names o d'.library d'.tree x.1 x.2.document := by
  induction nodes generalizing d out with
  | nil =>
    obtain ⟨rfl, rfl⟩ := Action.pure_eq_ok.mp h
    exact ⟨.refl, fun x hx => (nomatch hx)⟩
  | cons node nodes ih =>
    obtain ⟨p, d₁, more, h₁, h₂, rfl⟩ := readTargets_cons h
    obtain ⟨hext₁, name, e, hname, hpath, hfind, hg⟩ := named_place hwf h₁
    have hnode := hnodes node List.mem_cons_self
    have hf := fetched_readTargets hg.wellFormed h₂
    obtain ⟨hext₂, hmore⟩ := ih hg.wellFormed (fun n hn => hg.live n (hnodes n (List.mem_cons_of_mem _ hn))) h₂
    refine ⟨hext₁.trans hext₂, ?_⟩
    rintro x (_ | ⟨_, hx⟩)
    · refine ⟨rfl, ?_⟩
      have hk : Keeps d.tree.Live d.tree d₁.tree := fun n hn => ⟨hg.live n hn, hg.node n hn⟩
      have hname₁ : target d₁.tree node = .ok name :=
        target_alike (hk.alike hwf hg.wellFormed (Tree.closed_live hwf)) hnode hname
      have hn : Names o d₁.library d₁.tree ⟨node, p.root, origin⟩ p :=
        ⟨name, e, hname₁, by rw [← hpath], hfind, hg.holds⟩
      exact hn.keeps hg.wellFormed hf.wellFormed hf.keeps hext₂.keeps (hg.live node hnode) hg.live_root
    · exact hmore x hx

/-! ## Documents -/

theorem mem_statics (hwf : t.WellFormed) {n : NodeId} : n ∈ statics t root ↔ Under t root n ∧ IsStatic t n := by
  unfold statics IsStatic
  rw [List.mem_filter, List.mem_cons, hwf.mem_descendants, Bool.and_eq_true, beq_iff_eq, beq_iff_eq]
  refine and_congr_left fun _ => ⟨?_, fun hu => ?_⟩
  · rintro (rfl | hu)
    · exact .self
    · exact hu.1
  · by_cases he : n = root
    · exact .inl he
    · exact .inr ⟨hu, he⟩

/-- Documents that have been looked through, with all their static imports among those that were found;
    documents `us` are still to be looked through. -/
structure Gathered (o : Options) (l : Library) (t : Tree) (docs : List Placed) (us : List Unread)
    (found : List Splice) : Prop where
  live : ∀ D ∈ docs, t.Live D.root
  root : ∀ D ∈ docs, t.parent? D.root = none
  apart : ∀ D ∈ docs, ∀ u ∈ us, D.root ≠ u.document.root
  static : ∀ D ∈ docs, ∀ n, Under t D.root n → IsStatic t n → ∃ s ∈ found, s.node = n
  stands : ∀ s ∈ found, IsStatic t s.node ∧ ∃ D ∈ docs, Under t D.root s.node
  origin : ∀ D ∈ docs, ∀ s ∈ found, Under t D.root s.node → s.origin = D.path
  named : ∀ s ∈ found, ∃ D, Names o l t s D ∧ (D ∈ docs ∨ ∃ u ∈ us, u.document = D)

theorem Gathered.extends (h : Gathered o l t docs us found)
    (hl : ∀ path e, l.find? path = some e → l'.find? path = some e) : Gathered o l' t docs us found where
  live := h.live
  root := h.root
  apart := h.apart
  static := h.static
  stands := h.stands
  origin := h.origin
  named := by
    intro s hs
    obtain ⟨D, ⟨name, e, ht, hD, hf, hh⟩, hor⟩ := h.named s hs
    exact ⟨D, ⟨name, e, ht, hD, hl _ _ hf, hh⟩, hor⟩

/-- A document is looked through. -/
theorem Gathered.fetched {u : Unread} (hg : Gathered o l t docs (u :: us) found) (hwf : t.WellFormed)
    (hp : Pending t found) (hw : Waiting t (u :: us) found)
    (hf : Fetched t (statics t u.document.root) out t')
    (hl : ∀ path e, l.find? path = some e → l'.find? path = some e)
    (hout : ∀ x ∈ out, x.1.origin = u.document.path ∧ Names o l' t' x.1 x.2.document) :
    Gathered o l' t' (u.document :: docs) ((out.map Prod.snd).reverse ++ us)
      ((out.map Prod.fst).reverse ++ found) := by
  have hlu := hw.live u List.mem_cons_self
  have hstatic : ∀ n, t.Live n → (IsStatic t' n ↔ IsStatic t n) := fun n hn =>
    isStatic_alike (hf.keeps.alike hwf hf.wellFormed (Tree.closed_live hwf)) hn
  have hnode : ∀ x ∈ out, Under t u.document.root x.1.node ∧ IsStatic t x.1.node := by
    intro x hx
    rw [← mem_statics hwf, ← hf.nodes]
    exact List.mem_map_of_mem hx
  have hlive : ∀ D ∈ u.document :: docs, t.Live D.root := by
    intro D hD
    rcases List.mem_cons.mp hD with rfl | hD
    · exact hlu
    · exact hg.live D hD
  have hroot : ∀ D ∈ u.document :: docs, t.parent? D.root = none := by
    intro D hD
    rcases List.mem_cons.mp hD with rfl | hD
    · exact hw.root u List.mem_cons_self
    · exact hg.root D hD
  -- what stands in one of the documents stood there before
  have hback : ∀ D ∈ u.document :: docs, ∀ n, Under t' D.root n → Under t D.root n := by
    intro D hD n hn
    have hc := Tree.closed_document hwf (hlive D hD) (hroot D hD)
    have hk : Keeps (Under t D.root) t t' := fun m hm => hf.keeps m (hc.live m hm)
    exact (hk.closed hc hwf hf.wellFormed).below .self hn
  refine ⟨fun D hD => (hf.keeps _ (hlive D hD)).1,
    fun D hD => (hf.keeps.parent? (hlive D hD)).trans (hroot D hD), ?_, ?_, ?_, ?_, ?_⟩
  · intro D hD v hv
    rcases List.mem_append.mp hv with hv | hv
    · obtain ⟨x, hx, rfl⟩ := List.mem_map.mp (List.mem_reverse.mp hv)
      rw [hf.unread x hx]
      exact fun he => hf.fresh x hx (he ▸ hlive D hD)
    · rcases List.mem_cons.mp hD with rfl | hD
      · exact (List.pairwise_cons.mp hw.distinct).1 v hv
      · exact hg.apart D hD v (List.mem_cons_of_mem u hv)
  · intro D hD n hn hst'
    have hu := hback D hD n hn
    have hst := (hstatic n (hwf.live_of_under (hlive D hD) hu)).mp hst'
    rcases List.mem_cons.mp hD with rfl | hD
    · have hm := (mem_statics hwf).mpr ⟨hu, hst⟩
      rw [← hf.nodes] at hm
      obtain ⟨x, hx, rfl⟩ := List.mem_map.mp hm
      exact ⟨x.1, List.mem_append_left _ (List.mem_reverse.mpr (List.mem_map_of_mem hx)), rfl⟩
    · obtain ⟨s, hs, rfl⟩ := hg.static D hD n hu hst
      exact ⟨s, List.mem_append_right _ hs, rfl⟩
  · intro s hs
    rcases List.mem_append.mp hs with hs | hs
    · obtain ⟨x, hx, rfl⟩ := List.mem_map.mp (List.mem_reverse.mp hs)
      obtain ⟨hu, hst⟩ := hnode x hx
      have hn := hwf.live_of_under hlu hu
      exact ⟨(hstatic _ hn).mpr hst, u.document, List.mem_cons_self, (hf.under hwf hn).mpr hu⟩
    · obtain ⟨hst, D, hD, hu⟩ := hg.stands s hs
      have hn := hp.live_node s hs
      exact ⟨(hstatic _ hn).mpr hst, D, List.mem_cons_of_mem _ hD, (hf.under hwf hn).mpr hu⟩
  · intro D hD s hs hu'
    have hu := hback D hD _ hu'
    rcases List.mem_append.mp hs with hs | hs
    · obtain ⟨x, hx, rfl⟩ := List.mem_map.mp (List.mem_reverse.mp hs)
      rcases List.mem_cons.mp hD with rfl | hD
      · exact (hout x hx).1
      · exact absurd (Under.root_unique (hg.root D hD) (hw.root u List.mem_cons_self) hu (hnode x hx).1)
          (hg.apart D hD u List.mem_cons_self)
    · rcases List.mem_cons.mp hD with rfl | hD
      · exact absurd hu (hw.apart u List.mem_cons_self s hs)
      · exact hg.origin D hD s hs hu
  · intro s hs
    rcases List.mem_append.mp hs with hs | hs
    · obtain ⟨x, hx, rfl⟩ := List.mem_map.mp (List.mem_reverse.mp hs)
      exact ⟨_, (hout x hx).2, .inr ⟨x.2, List.mem_append_left _
        (List.mem_reverse.mpr (List.mem_map_of_mem hx)), rfl⟩⟩
    · obtain ⟨D, hD, hor⟩ := hg.named s hs
      refine ⟨D, hD.keeps hwf hf.wellFormed hf.keeps hl (hp.live_node s hs) (hp.live_root s hs), ?_⟩
      rcases hor with hm | ⟨v, hv, rfl⟩
      · exact .inl (List.mem_cons_of_mem _ hm)
      · rcases List.mem_cons.mp hv with rfl | hv
        · exact .inl List.mem_cons_self
        · exact .inr ⟨v, List.mem_append_right _ hv, rfl⟩

/-- When all documents have been read, all that were to be looked through have been. -/
theorem gathered_readAll {k : Nat} (hwf : d.tree.WellFormed) (hp : Pending d.tree found)
    (hw : Waiting d.tree us found) (hg : Gathered o d.library d.tree docs us found)
    (h : readAll o load k us found d = .ok ss d') :
    d.library.Extends load d'.library
      ∧ ∃ docs', docs ⊆ docs' ∧ (∀ u ∈ us, u.document ∈ docs') ∧ Gathered o d'.library d'.tree docs' [] ss := by
  induction k generalizing us found d docs with
  | zero =>
    cases us with
    | nil =>
      obtain ⟨rfl, rfl⟩ := Action.pure_eq_ok.mp h
      exact ⟨.refl, docs, fun _ hD => hD, fun _ hu => (nomatch hu), hg⟩
    | cons u us => exact (Action.fail_eq_ok.mp h).elim
  | succ k ih =>
    cases us with
    | nil =>
      obtain ⟨rfl, rfl⟩ := Action.pure_eq_ok.mp h
      exact ⟨.refl, docs, fun _ hD => hD, fun _ hu => (nomatch hu), hg⟩
    | cons u us =>
      unfold readAll at h
      rw [Action.get_bind_eq_ok] at h
      obtain ⟨out, d₁, h₁, h⟩ := Action.bind_eq_ok.mp h
      have hin : ∀ n ∈ statics d.tree u.document.root, Under d.tree u.document.root n :=
        fun n hn => under_of_mem_statics hwf hn
      have hf := fetched_readTargets hwf h₁
      obtain ⟨hp₁, hw₁⟩ := pending_fetched hwf hp hw (pairwise_statics hwf _) hin hf
      obtain ⟨hext₁, hout⟩ := named_readTargets hwf
        (fun n hn => hwf.live_of_under (hw.live u List.mem_cons_self) (hin n hn)) h₁
      obtain ⟨hext₂, docs', hsub, hus, hg'⟩ := ih hf.wellFormed hp₁ hw₁
        (hg.fetched hwf hp hw hf hext₁.keeps hout) h
      refine ⟨hext₁.trans hext₂, docs', fun D hD => hsub (List.mem_cons_of_mem _ hD), fun v hv => ?_, hg'⟩
      rcases List.mem_cons.mp hv with rfl | hv
      · exact hsub List.mem_cons_self
      · exact hus v (List.mem_append_right _ hv)

/-- What is known of the imports of one document when all documents have been read. -/
theorem gathered_read {document : Placed} {k : Nat} (hwf : d.tree.WellFormed) (hl : d.tree.Live document.root)
    (hr : d.tree.parent? document.root = none) (h : readAll o load k [⟨document, []⟩] [] d = .ok ss d') :
    d.library.Extends load d'.library
      ∧ ∃ docs, document ∈ docs ∧ Gathered o d'.library d'.tree docs [] ss := by
  have hnone : Pending d.tree [] := ⟨by simp, by simp, by simp, by simp, .nil⟩
  have hwaits : Waiting d.tree [⟨document, []⟩] [] :=
    ⟨by simpa using hl, by simpa using hr, by simp, by simp⟩
  have hempty : Gathered o d.library d.tree [] [⟨document, []⟩] [] :=
    ⟨by simp, by simp, by simp, by simp, by simp, by simp, by simp⟩
  obtain ⟨hext, docs, -, hus, hg⟩ := gathered_readAll hwf hnone hwaits hempty h
  exact ⟨hext, docs, hus _ List.mem_cons_self, hg⟩

end Stencil.Import
