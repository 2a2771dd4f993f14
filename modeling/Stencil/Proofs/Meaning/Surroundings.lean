/-
  Where a walk stands, and what is left to do there.

  A walk stands among the children of a node, in groups and loops.  `Surrounded` says that these stand for what is
  around on an agenda: behind each group there is what comes behind it, and each loop has its body below it.

  What a visit changes below a node does not matter for what is around the node (`Surrounded.relisted`): behind the
  visit, the nodes stand for the elements that they stood for.
-/
import Stencil.Proofs.Meaning.Agenda
import Stencil.Proofs.Meaning.Mirrors
import Stencil.Walk.Basic

set_option autoImplicit false

namespace Stencil.Meaning

open Stencil.Tree (Under)

variable {outputs : Bool} {t t' : Tree} {root p q n m : NodeId} {e : Element} {es : List Element} {loops : List Loop}
  {scan : List Position} {around : List Surrounding} {ns : List NodeId} {next : Option NodeId}

/-! ## What comes next -/

/-- The nodes of a list stand for elements, perhaps behind some nodes that stand for nothing. -/
def Lists (outputs : Bool) (t : Tree) (ns : List NodeId) (es : List Element) : Prop :=
  ∃ markers rest, ns = markers ++ rest ∧ (∀ m ∈ markers, t.name m = "nop") ∧ MirrorsAll outputs t rest es

theorem Lists.of_mirrorsAll (h : MirrorsAll outputs t ns es) : Lists outputs t ns es :=
  ⟨[], ns, rfl, fun _ hm => absurd hm List.not_mem_nil, h⟩

theorem Lists.eq_nil (h : Lists outputs t [] es) : es = [] := by
  obtain ⟨markers, rest, heq, -, hr⟩ := h
  obtain ⟨-, rfl⟩ := List.append_eq_nil_iff.mp heq.symm
  exact hr.eq_nil_iff.mp rfl

/-- The first node of the list stands for nothing, or for the first element. -/
theorem Lists.cases (h : Lists outputs t (n :: ns) es) :
    t.name n = "nop" ∧ Lists outputs t ns es
      ∨ ∃ e es' traces rest, es = e :: es' ∧ ns = traces ++ rest ∧ Mirrors outputs t n e ∧ (∀ m ∈ traces, IsTrace t n m)
        ∧ (∀ m ∈ rest.head?, ¬ IsCopy t n m) ∧ MirrorsAll outputs t rest es' := by
  obtain ⟨markers, rest, heq, hmarkers, hr⟩ := h
  cases markers with
  | cons m markers =>
    obtain ⟨rfl, rfl⟩ := List.cons_eq_cons.mp heq
    exact .inl ⟨hmarkers n List.mem_cons_self, markers, rest, rfl,
      fun m hm => hmarkers m (List.mem_cons_of_mem _ hm), hr⟩
  | nil =>
    rw [List.nil_append] at heq
    subst heq
    cases es with
    | nil => exact absurd (mirrorsAll_nil.mp hr) (List.cons_ne_nil _ _)
    | cons e es =>
      obtain ⟨n', traces, rest, heq, hn, ht, hb, hes⟩ := mirrorsAll_cons.mp hr
      obtain ⟨rfl, rfl⟩ := List.cons_eq_cons.mp heq
      exact .inr ⟨e, es, traces, rest, rfl, rfl, hn, ht, hb, hes⟩

/-- What comes next in a run below `p`. -/
def AheadAt (outputs : Bool) (t : Tree) (p : NodeId) (next : Option NodeId) (es : List Element) : Prop :=
  match next with
  | some n => t.parent? n = some p ∧ Lists outputs t (n :: t.followingSiblings n) es
  | none => es = []

/-- What comes behind a node. -/
theorem aheadAt_nextSibling (hwf : t.WellFormed) (hp : t.parent? n = some p)
    (h : Lists outputs t (t.followingSiblings n) es) : AheadAt outputs t p (t.nextSibling? n) es := by
  cases hs : t.nextSibling? n with
  | none =>
    obtain ⟨before, after, hsplit⟩ := hwf.exists_split hp
    rw [hwf.nextSibling?_of_split hsplit, List.head?_eq_none_iff] at hs
    rw [hwf.followingSiblings_of_split hsplit, hs] at h
    exact h.eq_nil
  | some c =>
    rw [hwf.followingSiblings_nextSibling? hs] at h
    exact ⟨hwf.parent?_of_nextSibling? hp hs, h⟩

/-- What comes below a node. -/
theorem aheadAt_firstChild (hwf : t.WellFormed) (hf : t.firstChild? p = some n)
    (h : MirrorsAll outputs t (t.children p) es) : AheadAt outputs t p (some n) es := by
  obtain ⟨after, hsplit⟩ := List.head?_eq_some_iff.mp hf
  refine ⟨hwf.mem_children.mp (List.mem_of_head? hf), .of_mirrorsAll ?_⟩
  rw [hwf.followingSiblings_of_split (x := []) hsplit, ← hsplit]
  exact h

/-! ## What is around -/

/-- The groups and loops around the children of a node stand for what is around on an agenda. -/
inductive Surrounded (outputs : Bool) (t : Tree) (root : NodeId) :
    NodeId → List Loop → List Position → List Surrounding → Prop
  /-- Directly below the root. -/
  | top : Surrounded outputs t root root [] [] []
  /-- In a group, which is left for a position behind it. -/
  | group {p q : NodeId} {back : Position} {loops : List Loop} {scan : List Position} {around : List Surrounding}
      {behind : List Element} (outer : Surrounded outputs t root q loops scan around) (parent : t.parent? p = some q)
      (name : t.name p = "items") (ahead : AheadAt outputs t q (some back.node) behind) :
      Surrounded outputs t root p loops (back :: scan) (.group back.key behind :: around)
  /-- In a run of a loop. -/
  | loop {p q : NodeId} {l : Loop} {loops : List Loop} {scan : List Position} {around : List Surrounding}
      {body behind : List Element} (outer : Surrounded outputs t root q loops scan around) (parent : t.parent? p = some q)
      (name : t.name p = "repeat") (runs : MirrorsAll outputs t (t.children p) body)
      (ahead : MirrorsAll outputs t (t.followingSiblings p) behind) :
      Surrounded outputs t root p (l :: loops) scan (.loop { l with anchor := 0 } body behind :: around)

/-- A node with a walk among its children is no field, unless it is the root. -/
theorem Surrounded.placed (h : Surrounded outputs t root p loops scan around) (hr : t.parent? root = none)
    (hname : t.name p = "item") : t.parent? p = none := by
  cases h with
  | top => exact hr
  | group outer parent name =>
    rw [name] at hname
    exact absurd hname (by decide)
  | loop outer parent name =>
    rw [name] at hname
    exact absurd hname (by decide)

/-! ## Changes below a node -/

theorem followingSiblings_congr (hp : t'.parent? n = t.parent? n)
    (hc : ∀ q, t.parent? n = some q → t'.children q = t.children q) :
    t'.followingSiblings n = t.followingSiblings n := by
  unfold Tree.followingSiblings Tree.position?
  rw [hp]
  cases hq : t.parent? n with
  | none => rfl
  | some q =>
    dsimp only
    rw [hc q hq]
    cases List.findIdx? (· == n) (t.children q) with
    | none => rfl
    | some i => exact congrArg (List.drop (i + 1)) (hc q hq)

section

variable (hwf : t.WellFormed) (hp : t.parent? p = some q) (h : Patched outputs t p t')

include hwf hp h

/-- The siblings of a node below which something changes stay where they are. -/
theorem Patched.sibling (hn : t.parent? n = some q) : t'.parent? n = some q ∧ t'.name n = t.name n
    ∧ t'.followingSiblings n = t.followingSiblings n := by
  have hq : ¬ Under t p q := hwf.not_under_parent hp
  obtain ⟨hl, hside⟩ := Beneath.child hwf hn hq
  have hpar := h.parent? n hl hside
  refine ⟨hpar.trans hn, (h.name_of hl hside).1, followingSiblings_congr hpar fun q' hq' => ?_⟩
  rw [hn] at hq'
  cases hq'
  exact children_of_outline (h.outline q (hwf.live_of_parent hp).2 hq)

theorem Patched.siblings_of (hns : ∀ i ∈ ns, t.parent? i = some q) (hm : MirrorsAll outputs t ns es) :
    MirrorsAll outputs t' ns es :=
  h.mirrorsAll_of hwf (fun i hi => ⟨⟨q, hns i hi⟩, (Beneath.child hwf (hns i hi) (hwf.not_under_parent hp)).2⟩) hm

theorem Lists.patched (hns : ∀ i ∈ ns, t.parent? i = some q) (hl : Lists outputs t ns es) : Lists outputs t' ns es := by
  obtain ⟨markers, rest, rfl, hmarkers, hr⟩ := hl
  refine ⟨markers, rest, rfl, fun m hm => ?_, h.siblings_of hwf hp (fun i hi => hns i (List.mem_append_right _ hi)) hr⟩
  rw [(h.sibling hwf hp (hns m (List.mem_append_left _ hm))).2.1]
  exact hmarkers m hm

end

theorem parent?_of_mem_following (hwf : t.WellFormed) (hn : t.parent? n = some q) (hm : m ∈ t.followingSiblings n) :
    t.parent? m = some q := by
  obtain ⟨q', hn', hm', -⟩ := hwf.mem_followingSiblings hm
  rw [hn] at hn'
  cases hn'
  exact hm'

/-- What comes next beside a node below which something changes. -/
theorem AheadAt.patched (hwf : t.WellFormed) (hp : t.parent? p = some q) (h : Patched outputs t p t')
    (ha : AheadAt outputs t q next es) : AheadAt outputs t' q next es := by
  cases next with
  | none => exact ha
  | some n =>
    obtain ⟨hn, hl⟩ := ha
    obtain ⟨hn', -, hfollow⟩ := h.sibling hwf hp hn
    refine ⟨hn', ?_⟩
    rw [hfollow]
    exact hl.patched hwf hp h (List.forall_mem_cons.mpr ⟨hn, fun m hm => parent?_of_mem_following hwf hn hm⟩)

/-- What changes below a node does not matter for what is around it. -/
theorem Surrounded.relisted (hwf : t.WellFormed) (hr : t.parent? root = none)
    (h : Surrounded outputs t root p loops scan around) (hrel : Relisted outputs t p t') :
    Surrounded outputs t' root p loops scan around := by
  induction h with
  | top => exact .top
  | group outer parent name ahead ih =>
    have hpat := hrel.patched (.inl name) fun q' hq' => by
      rw [parent] at hq'
      cases hq'
      exact outer.placed hr
    have hself := hpat.sibling hwf parent parent
    exact .group (ih (hpat.relisted hwf parent)) hself.1 (hself.2.1.trans name) (ahead.patched hwf parent hpat)
  | loop outer parent name runs ahead ih =>
    have hpat := hrel.patched (.inr name) fun q' hq' => by
      rw [parent] at hq'
      cases hq'
      exact outer.placed hr
    have hself := hpat.sibling hwf parent parent
    refine .loop (ih (hpat.relisted hwf parent)) hself.1 (hself.2.1.trans name) (hrel.mirrorsAll _ runs) ?_
    rw [hself.2.2]
    exact hpat.siblings_of hwf parent (fun m hm => parent?_of_mem_following hwf parent hm) ahead

end Stencil.Meaning
