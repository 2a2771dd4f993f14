/-
  The body of a `writer`, as it is walked.

  A body holds fields, groups, and nodes that stand for nothing.  The walk stops at fields, to write them, and at
  groups that are not empty, to go into them; it passes everything else.

    1. **Where a body is** — a node stands in a body if its parent is the `writer` or a group there, and the key of
       the `writer` is extended by the names of these groups (`Enclosed`).  In a body there is nothing else
       (`IsBody`).
    2. **Stops** — a walk along siblings comes by its stops in document order, and visits so many nodes
       (`Stops`).  It comes by each field and each group that is not empty (`Stops.mem_iff`), once
       (`Stops.sublist`), and visits at most two nodes for each node there is, one of which it may have put there
       itself (`Stops.le`).
    3. **Changes** — what happens below a field, and a node that stands for nothing behind the others, changes no
       stop (`Stops.congr`, `Stops.marked`).
-/
import Stencil.Proofs.Meaning.Rendering

set_option autoImplicit false

namespace Stencil.Walk

open Stencil.Tree (Under)
open Stencil.Meaning (Beneath)

variable {t t' : Tree} {node n m q g : NodeId} {key key' : String} {ns ms : List NodeId} {p : Position}
  {ps qs : List Position} {k l : Nat}

/-! ## Where a body is -/

/-- `q` is the node, or a group in groups in it, and what stands in `q` stands under the key `k`. -/
inductive Enclosed (t : Tree) (node : NodeId) (key : String) : NodeId → String → Prop
  | body : Enclosed t node key node key
  | group {q g : NodeId} {k : String} (outer : Enclosed t node key q k) (link : t.parent? g = some q)
      (name : t.name g = "items") : Enclosed t node key g (t.keyPath k g)

theorem Enclosed.trans {k k' : String} (h : Enclosed t node key q k) (h' : Enclosed t q k g k') :
    Enclosed t node key g k' := by
  induction h' with
  | body => exact h
  | group _ link name ih => exact .group ih link name

/-- What is enclosed is the node itself, or it is enclosed in a group there. -/
theorem Enclosed.cases_head {k : String} (h : Enclosed t node key q k) :
    (q = node ∧ k = key)
      ∨ ∃ g, t.parent? g = some node ∧ t.name g = "items" ∧ Enclosed t g (t.keyPath key g) q k := by
  induction h with
  | body => exact .inl ⟨rfl, rfl⟩
  | group outer link name ih =>
    rcases ih with ⟨rfl, rfl⟩ | ⟨g, hg, hname, hin⟩
    · exact .inr ⟨_, link, name, .body⟩
    · exact .inr ⟨g, hg, hname, .group hin link name⟩

/-- The key that a `writer` states for its body. -/
def bodyKey (t : Tree) (node : NodeId) : String := (t.attr? node "key").getD ""

/-- What may stand in a body: a field that states no place, a group, or nothing. -/
def Fits (t : Tree) (n : NodeId) : Prop :=
  (t.name n = "item" ∧ t.attr? n "offset" = none) ∨ t.name n = "items" ∨ t.name n = "nop"

/-- In a node and in the groups there, at any depth, there are only fields that state no place, groups, and nodes
    that stand for nothing. -/
def IsBody (t : Tree) (node : NodeId) : Prop :=
  ∀ q k n, Enclosed t node (bodyKey t node) q k → t.parent? n = some q → Fits t n

/-- A walk stops at fields and at groups that are not empty. -/
def IsStop (t : Tree) (n : NodeId) : Prop := t.name n = "item" ∨ t.name n = "items" ∧ t.children n ≠ []

/-! ## Stops -/

/-- A walk along siblings under a key comes by the stops `ps` and visits `k` nodes.  Behind a group that is not empty
    it visits one node at least: the next sibling, or the one that it puts there. -/
inductive Stops (t : Tree) : String → List NodeId → List Position → Nat → Prop
  | nil {key : String} : Stops t key [] [] 0
  | field {key : String} {n : NodeId} {ns : List NodeId} {ps : List Position} {k : Nat} (name : t.name n = "item")
      (plain : t.attr? n "offset" = none) (rest : Stops t key ns ps k) : Stops t key (n :: ns) (⟨key, n⟩ :: ps) (k + 1)
  | group {key : String} {n : NodeId} {ns : List NodeId} {ps qs : List Position} {k l : Nat} (name : t.name n = "items")
      (some : t.children n ≠ []) (inner : Stops t (t.keyPath key n) (t.children n) qs l) (rest : Stops t key ns ps k) :
      Stops t key (n :: ns) (⟨key, n⟩ :: (qs ++ ps)) (l + max 1 k + 1)
  | pass {key : String} {n : NodeId} {ns : List NodeId} {ps : List Position} {k : Nat}
      (void : t.name n = "nop" ∨ t.name n = "items" ∧ t.children n = []) (rest : Stops t key ns ps k) :
      Stops t key (n :: ns) ps (k + 1)

theorem parent?_ne_of_empty (hwf : t.WellFormed) (h : t.children n = []) (c : NodeId) : t.parent? c ≠ some n := by
  intro hc
  have hmem := hwf.mem_children.mpr hc
  rw [h] at hmem
  cases hmem

/-- A body has stops. -/
theorem exists_stops (hwf : t.WellFormed) (hbody : IsBody t node) (hq : Enclosed t node (bodyKey t node) q key) :
    ∃ ps k, Stops t key (t.children q) ps k := by
  refine hwf.induction_below (motive := fun q => ∀ key, Enclosed t node (bodyKey t node) q key →
    ∃ ps k, Stops t key (t.children q) ps k) (fun q ih key hq => ?_) q key hq
  suffices h : ∀ ns, (∀ n ∈ ns, n ∈ t.children q) → ∃ ps k, Stops t key ns ps k from h _ fun _ hn => hn
  intro ns hns
  induction ns with
  | nil => exact ⟨[], 0, .nil⟩
  | cons n ns ihns =>
    obtain ⟨ps, k, hrest⟩ := ihns fun m hm => hns m (List.mem_cons_of_mem n hm)
    have hn := hns n List.mem_cons_self
    have hp := hwf.mem_children.mp hn
    rcases hbody q key n hq hp with ⟨hname, hplain⟩ | hname | hname
    · exact ⟨_, _, .field hname hplain hrest⟩
    · by_cases hempty : t.children n = []
      · exact ⟨_, _, .pass (.inr ⟨hname, hempty⟩) hrest⟩
      · obtain ⟨qs, l, hinner⟩ := ih n hn _ (.group hq hp hname)
        exact ⟨_, _, .group hname hempty hinner hrest⟩
    · exact ⟨_, _, .pass (.inl hname) hrest⟩

/-- Where a walk has stops, there is a body. -/
theorem Stops.fits (hwf : t.WellFormed) (h : Stops t key ns ps k) (hn : n ∈ ns) :
    Fits t n ∧ (t.name n = "items" →
      ∀ q k' m, Enclosed t n (t.keyPath key n) q k' → t.parent? m = some q → Fits t m) := by
  induction h generalizing n with
  | nil => cases hn
  | field name plain rest ih =>
    rcases List.mem_cons.mp hn with rfl | hn
    · exact ⟨.inl ⟨name, plain⟩, fun hitems => absurd (name.symm.trans hitems) (by decide)⟩
    · exact ih hn
  | @group key g ns ps qs k l name some inner rest ihinner ih =>
    rcases List.mem_cons.mp hn with rfl | hn
    · refine ⟨.inr (.inl name), fun _ q k' m hq hm => ?_⟩
      rcases hq.cases_head with ⟨rfl, rfl⟩ | ⟨g, hg, hname, hin⟩
      · exact (ihinner (hwf.mem_children.mpr hm)).1
      · exact (ihinner (hwf.mem_children.mpr hg)).2 hname q k' m hin hm
    · exact ih hn
  | @pass key g ns ps k void rest ih =>
    rcases List.mem_cons.mp hn with rfl | hn
    · rcases void with hname | ⟨hname, hempty⟩
      · exact ⟨.inr (.inr hname), fun hitems => absurd (hname.symm.trans hitems) (by decide)⟩
      · refine ⟨.inr (.inl hname), fun _ q k' m hq hm => ?_⟩
        rcases hq.cases_head with ⟨rfl, rfl⟩ | ⟨g, hg, -, -⟩
        · exact absurd hm (parent?_ne_of_empty hwf hempty m)
        · exact absurd hg (parent?_ne_of_empty hwf hempty g)
    · exact ih hn

theorem Stops.isBody (hwf : t.WellFormed) (h : Stops t (bodyKey t node) (t.children node) ps k) : IsBody t node := by
  intro q k' n hq hn
  rcases hq.cases_head with ⟨rfl, rfl⟩ | ⟨g, hg, hname, hin⟩
  · exact (h.fits hwf (hwf.mem_children.mpr hn)).1
  · exact (h.fits hwf (hwf.mem_children.mpr hg)).2 hname q k' n hin hn

/-- What a walk comes by is a field or a group that is not empty, under the key of what encloses it. -/
theorem Stops.of_mem (hwf : t.WellFormed) (h : Stops t key ns ps k) (hns : ∀ n ∈ ns, t.parent? n = some q)
    (hp : p ∈ ps) : IsStop t p.node ∧ ∃ q', t.parent? p.node = some q' ∧ Enclosed t q key q' p.key := by
  induction h generalizing q with
  | nil => cases hp
  | field name plain rest ih =>
    rcases List.mem_cons.mp hp with rfl | hp
    · exact ⟨.inl name, q, hns _ List.mem_cons_self, .body⟩
    · exact ih (fun m hm => hns m (List.mem_cons_of_mem _ hm)) hp
  | @group key g ns ps qs k l name some inner rest ihinner ih =>
    have hg := hns g List.mem_cons_self
    rcases List.mem_cons.mp hp with rfl | hp
    · exact ⟨.inr ⟨name, some⟩, q, hg, .body⟩
    · rcases List.mem_append.mp hp with hp | hp
      · obtain ⟨hstop, q', hq', hin⟩ := ihinner (fun m hm => hwf.mem_children.mp hm) hp
        exact ⟨hstop, q', hq', .trans (.group .body hg name) hin⟩
      · exact ih (fun m hm => hns m (List.mem_cons_of_mem _ hm)) hp
  | pass void rest ih => exact ih (fun m hm => hns m (List.mem_cons_of_mem _ hm)) hp

/-- A walk comes by the fields and the groups that are not empty among the siblings, and by those that are enclosed
    in a group there. -/
theorem Stops.mem_of (hwf : t.WellFormed) (h : Stops t key ns ps k) (hn : n ∈ ns) (hp : IsStop t p.node)
    (hin : p = ⟨key, n⟩
      ∨ t.name n = "items" ∧ ∃ q, t.parent? p.node = some q ∧ Enclosed t n (t.keyPath key n) q p.key) : p ∈ ps := by
  induction h generalizing n with
  | nil => cases hn
  | @field key f ns ps k name plain rest ih =>
    rcases List.mem_cons.mp hn with rfl | hn
    · rcases hin with rfl | ⟨hitems, -⟩
      · exact List.mem_cons_self
      · exact absurd (name.symm.trans hitems) (by decide)
    · exact List.mem_cons_of_mem _ (ih hn hin)
  | @group key g ns ps qs k l name some inner rest ihinner ih =>
    rcases List.mem_cons.mp hn with rfl | hn
    · rcases hin with rfl | ⟨-, q, hq, henc⟩
      · exact List.mem_cons_self
      · refine List.mem_cons_of_mem _ (List.mem_append_left _ ?_)
        rcases henc.cases_head with ⟨rfl, hkey⟩ | ⟨g, hg, hname, henc⟩
        · exact ihinner (hwf.mem_children.mpr hq) (.inl (by rw [← hkey]))
        · exact ihinner (hwf.mem_children.mpr hg) (.inr ⟨hname, q, hq, henc⟩)
    · exact List.mem_cons_of_mem _ (List.mem_append_right _ (ih hn hin))
  | @pass key g ns ps k void rest ih =>
    rcases List.mem_cons.mp hn with rfl | hn
    · exfalso
      rcases void with hname | ⟨hname, hempty⟩
      · rcases hin with rfl | ⟨hitems, -⟩
        · rcases hp with hp | ⟨hp, -⟩ <;> exact absurd (hname.symm.trans hp) (by decide)
        · exact absurd (hname.symm.trans hitems) (by decide)
      · rcases hin with rfl | ⟨-, q, hq, henc⟩
        · rcases hp with hp | ⟨-, hp⟩
          · exact absurd (hname.symm.trans hp) (by decide)
          · exact hp hempty
        · rcases henc.cases_head with ⟨rfl, -⟩ | ⟨g, hg, -, -⟩
          · exact parent?_ne_of_empty hwf hempty p.node hq
          · exact parent?_ne_of_empty hwf hempty g hg
    · exact ih hn hin

/-- A walk through a body comes by each field and each group in it that is not empty, under the key of what encloses
    it, and by nothing else. -/
theorem Stops.mem_iff (hwf : t.WellFormed) (h : Stops t key (t.children q) ps k) :
    p ∈ ps ↔ IsStop t p.node ∧ ∃ q', t.parent? p.node = some q' ∧ Enclosed t q key q' p.key := by
  refine ⟨h.of_mem hwf fun n hn => hwf.mem_children.mp hn, ?_⟩
  rintro ⟨hstop, q', hq', henc⟩
  rcases henc.cases_head with ⟨rfl, hkey⟩ | ⟨g, hg, hname, henc⟩
  · exact h.mem_of hwf (hwf.mem_children.mpr hq') hstop (.inl (by rw [← hkey]))
  · exact h.mem_of hwf (hwf.mem_children.mpr hg) hstop (.inr ⟨hname, q', hq', henc⟩)

/-- The stops come in document order. -/
theorem Stops.sublist (hwf : t.WellFormed) (h : Stops t key ns ps k) :
    (ps.map Position.node).Sublist (ns.flatMap fun n => n :: t.descendants n) := by
  induction h with
  | nil => exact .slnil
  | field name plain rest ih =>
    rw [List.map_cons, List.flatMap_cons]
    exact (ih.trans (List.sublist_append_right _ _)).cons_cons _
  | group name some inner rest ihinner ih =>
    rw [List.map_cons, List.map_append, List.flatMap_cons, hwf.descendants_eq]
    exact (ihinner.append ih).cons_cons _
  | pass void rest ih =>
    rw [List.flatMap_cons]
    exact ih.trans (List.sublist_append_right _ _)

/-- No more nodes are visited than there are nodes and nodes that can be put behind them. -/
theorem Stops.le (hwf : t.WellFormed) (h : Stops t key ns ps k) :
    k ≤ 2 * (ns.flatMap fun n => n :: t.descendants n).length := by
  induction h with
  | nil => exact Nat.zero_le _
  | field name plain rest ih =>
    rw [List.flatMap_cons, List.length_append, List.length_cons]
    omega
  | group name some inner rest ihinner ih =>
    rw [List.flatMap_cons, List.length_append, List.length_cons, hwf.descendants_eq]
    omega
  | pass void rest ih =>
    rw [List.flatMap_cons, List.length_append, List.length_cons]
    omega

/-- Each sibling is visited. -/
theorem Stops.pos (h : Stops t key ns ps k) (hne : ns ≠ []) : 0 < k := by
  cases h with
  | nil => exact absurd rfl hne
  | _ => exact Nat.succ_pos _

/-! ## Changes -/

theorem keyPath_of_attrs (h : (t'.node n).attrs = (t.node n).attrs) (key : String) :
    t'.keyPath key n = t.keyPath key n := by
  unfold Tree.keyPath Tree.attr?
  rw [h]

/-- The stops depend on the names and the attributes of the nodes there, and on the children of the groups. -/
theorem Stops.congr {P : NodeId → Prop} (h : Stops t key ns ps k)
    (hsame : ∀ x, P x → t'.name x = t.name x ∧ (t'.node x).attrs = (t.node x).attrs
      ∧ (t.name x = "items" → t'.children x = t.children x ∧ ∀ c ∈ t.children x, P c))
    (hns : ∀ n ∈ ns, P n) : Stops t' key ns ps k := by
  induction h with
  | nil => exact .nil
  | @field key n ns ps k name plain rest ih =>
    obtain ⟨hname, hattrs, -⟩ := hsame n (hns n List.mem_cons_self)
    refine .field (hname.trans name) ?_ (ih fun m hm => hns m (List.mem_cons_of_mem _ hm))
    unfold Tree.attr?
    rw [hattrs]
    exact plain
  | @group key n ns ps qs k l name some inner rest ihinner ih =>
    obtain ⟨hname, hattrs, hgroup⟩ := hsame n (hns n List.mem_cons_self)
    obtain ⟨hchildren, hbelow⟩ := hgroup name
    refine .group (hname.trans name) (hchildren ▸ some) ?_ (ih fun m hm => hns m (List.mem_cons_of_mem _ hm))
    rw [hchildren, keyPath_of_attrs hattrs]
    exact ihinner hbelow
  | @pass key n ns ps k void rest ih =>
    obtain ⟨hname, -, hgroup⟩ := hsame n (hns n List.mem_cons_self)
    refine .pass ?_ (ih fun m hm => hns m (List.mem_cons_of_mem _ hm))
    rw [hname]
    exact void.imp_right fun ⟨hitems, hempty⟩ => ⟨hitems, (hgroup hitems).1.trans hempty⟩

/-- Nodes apart from one below which something changes. -/
theorem Stops.apart (hwf : t.WellFormed) (hb : Beneath t g t') (h : Stops t key ns ps k)
    (hns : ∀ n ∈ ns, t.Live n ∧ ¬ Under t g n ∧ ¬ Under t n g) : Stops t' key ns ps k := by
  refine h.congr (fun x hx => ?_) hns
  obtain ⟨hlive, hout, habove⟩ := hx
  have ho := hb.outline x hlive hout
  refine ⟨Meaning.name_of_outline ho, Meaning.attrs_of_outline ho, fun _ => ⟨Meaning.children_of_outline ho, ?_⟩⟩
  intro c hc
  have hp := hwf.mem_children.mp hc
  refine ⟨(hwf.live_of_parent hp).1, fun hu => ?_, fun hu => habove ((Tree.under_of_parent hp).trans hu)⟩
  by_cases hcg : c = g
  · exact habove (hcg ▸ Tree.under_of_parent hp)
  · exact hout (hu.of_parent hp hcg)

/-- Something changes below a field. -/
theorem Stops.below_field (hwf : t.WellFormed) (hname : t.name g = "item") (hb : Beneath t g t')
    (h : Stops t key ns ps k) (hns : ∀ n ∈ ns, t.Live n ∧ (¬ Under t g n ∨ n = g)) : Stops t' key ns ps k := by
  refine h.congr (fun x hx => ?_) hns
  obtain ⟨hlive, hout⟩ := hx
  rcases hout with hout | rfl
  · have ho := hb.outline x hlive hout
    refine ⟨Meaning.name_of_outline ho, Meaning.attrs_of_outline ho, fun _ => ⟨Meaning.children_of_outline ho, ?_⟩⟩
    exact fun c hc => Beneath.child hwf (hwf.mem_children.mp hc) hout
  · exact ⟨hb.name, hb.attrs, fun hitems => absurd (hname.symm.trans hitems) (by decide)⟩

/-- A node that stands for nothing is one more to visit, and no stop. -/
theorem Stops.append_void (h : Stops t key ns ps k) (hname : t.name m = "nop") :
    ∃ k', Stops t key (ns ++ [m]) ps k' := by
  induction h with
  | nil => exact ⟨1, .pass (.inl hname) .nil⟩
  | field name plain rest ih =>
    obtain ⟨k', h⟩ := ih
    exact ⟨_, .field name plain h⟩
  | group name some inner rest _ ih =>
    obtain ⟨k', h⟩ := ih
    exact ⟨_, .group name some inner h⟩
  | pass void rest ih =>
    obtain ⟨k', h⟩ := ih
    exact ⟨_, .pass void h⟩

theorem Marked.name_self (h : Marked t q m t') : t'.name m = "nop" := by
  unfold Tree.name
  rw [h.self]

/-- A node that stands for nothing is put behind the last child of a node that has children. -/
theorem Stops.marked (hwf : t.WellFormed) (hm : Marked t q m t') (hq : t.children q ≠ []) (h : Stops t key ns ps k)
    (hns : ∀ n ∈ ns, t.Live n) : ∃ k', Stops t' key ns ps k' := by
  have hsame : ∀ n, t.Live n → t'.name n = t.name n ∧ (t'.node n).attrs = (t.node n).attrs := fun n hn =>
    ⟨Tree.name_eq_of_content (hm.content n hn), Tree.attrs_eq_of_content (hm.content n hn)⟩
  have hchildren : ∀ n, t.Live n → n ≠ q → t'.children n = t.children n := fun n hn hne => by
    unfold Tree.children
    rw [hm.node n hn hne]
  have hbelow : ∀ n, ∀ c ∈ t.children n, t.Live c := fun n c hc => (hwf.live_of_parent (hwf.mem_children.mp hc)).1
  induction h with
  | nil => exact ⟨0, .nil⟩
  | @field key n ns ps k name plain rest ih =>
    obtain ⟨hname, hattrs⟩ := hsame n (hns n List.mem_cons_self)
    obtain ⟨k', h⟩ := ih fun m hm => hns m (List.mem_cons_of_mem _ hm)
    refine ⟨_, .field (hname.trans name) ?_ h⟩
    unfold Tree.attr?
    rw [hattrs]
    exact plain
  | @group key n ns ps qs k l name some inner rest ihinner ih =>
    have hlive := hns n List.mem_cons_self
    obtain ⟨hname, hattrs⟩ := hsame n hlive
    obtain ⟨k', h⟩ := ih fun m hm => hns m (List.mem_cons_of_mem _ hm)
    obtain ⟨l', hinner⟩ := ihinner (hbelow n)
    rw [← keyPath_of_attrs hattrs] at hinner
    by_cases hnq : n = q
    · subst hnq
      obtain ⟨l'', hinner⟩ := hinner.append_void hm.name_self
      rw [← hm.children] at hinner
      exact ⟨_, .group (hname.trans name) (by rw [hm.children]; simp) hinner h⟩
    · have hsame := hchildren n hlive hnq
      exact ⟨_, .group (hname.trans name) (hsame ▸ some) (by rw [hsame]; exact hinner) h⟩
  | @pass key n ns ps k void rest ih =>
    have hlive := hns n List.mem_cons_self
    obtain ⟨k', h⟩ := ih fun m hm => hns m (List.mem_cons_of_mem _ hm)
    refine ⟨_, .pass ?_ h⟩
    rw [(hsame n hlive).1]
    refine void.imp_right fun ⟨hitems, hempty⟩ => ⟨hitems, ?_⟩
    rw [hchildren n hlive fun he => hq (he ▸ hempty)]
    exact hempty

end Stencil.Walk
