/-
  Going on leaves the nodes standing for what they stood for.

  A walk that goes into a group may put a node that stands for nothing behind it; one that enters a loop drops the
  copies behind it; and a loop that goes on may put one more copy there.  Each time the nodes beside the group or the
  loop stand for the same elements as before (`Relisted`), and so do those below it and behind it.
-/
import Stencil.Proofs.Meaning.Surroundings
import Stencil.Proofs.Walk.Copied

set_option autoImplicit false

namespace Stencil.Meaning

open Stencil.Tree (Under HoldsAll)
open Stencil.Walk (Marked)
open Loop (Entered copies)
open Loop.Turn (Advanced)

variable {outputs : Bool} {t t' : Tree} {root p q n m a a' : NodeId} {e : Element} {es : List Element} {ns : List NodeId}

/-- Nodes below which no outline changes stand for what they did. -/
theorem mirrorsAll_of_children (hwf : t.WellFormed) (h : MirrorsAll outputs t ns es) (hns : ∀ i ∈ ns, t.parent? i = some p)
    (heq : ∀ x, x ≠ p → Under t p x → outline t' x = outline t x) : MirrorsAll outputs t' ns es := by
  refine h.congr hwf fun i hi x hx => heq x ?_ ((Tree.under_of_parent (hns i hi)).trans hx)
  rintro rfl
  exact hwf.not_under_parent (hns i hi) hx

theorem outline_of_content (h : t'.content n = t.content n) (hc : t'.children n = t.children n) :
    outline t' n = outline t n := by
  have hof : ∀ u : Tree, outline u n = { u.content n with
      children := u.children n, computed := { Computed.none with repeatId := (u.content n).computed.repeatId } } :=
    fun _ => rfl
  rw [hof, hof, h, hc]

/-! ## Going into a group -/

theorem outline_of_marked (hwf : t.WellFormed) (hl : t.Live p) (h : Marked t p m t') (hx : Under t p n) (hne : n ≠ p) :
    outline t' n = outline t n :=
  outline_of_node (h.node n (hwf.live_of_under hl hx) hne)

/-- A node that stands for nothing is put behind a group. -/
theorem relisted_of_marked (hwf : t.WellFormed) (hp : t.parent? n = some p) (hname : t.name n = "items")
    (hlast : t.nextSibling? n = none) (h : Marked t p m t') : Relisted outputs t p t' := by
  obtain ⟨hln, hlp⟩ := hwf.live_of_parent hp
  obtain ⟨before, after, hs⟩ := hwf.exists_split hp
  rw [hwf.nextSibling?_of_split hs, List.head?_eq_none_iff] at hlast
  rw [hlast] at hs
  refine ⟨.of_added hlp h, fun es hes => ?_⟩
  have hkept : MirrorsAll outputs t' (t.children p) es :=
    mirrorsAll_of_children hwf hes (fun i hi => hwf.mem_children.mp hi)
      fun x hne hx => outline_of_marked hwf hlp h hx hne
  have hmark : t'.name m = "nop" := by
    unfold Tree.name
    rw [h.self]
  rw [h.children, hs, List.append_assoc]
  rw [hs] at hkept
  exact hkept.append_marker ((Tree.name_eq_of_content (h.content n hln)).trans hname) hmark

/-- The group is what it was. -/
theorem node_of_marked (hwf : t.WellFormed) (hp : t.parent? n = some p) (h : Marked t p m t') : t'.node n = t.node n :=
  h.node n (hwf.live_of_parent hp).1 fun heq => hwf.parent_ne hp heq.symm

/-- The nodes in the group stand for what they did. -/
theorem body_of_marked (hwf : t.WellFormed) (hp : t.parent? n = some p) (h : Marked t p m t')
    (hes : MirrorsAll outputs t (t.children n) es) : MirrorsAll outputs t' (t'.children n) es := by
  rw [show t'.children n = t.children n from congrArg Node.children (node_of_marked hwf hp h)]
  refine mirrorsAll_of_children hwf hes (fun i hi => hwf.mem_children.mp hi) fun x _ hx => ?_
  refine outline_of_marked hwf (hwf.live_of_parent hp).2 h ((Tree.under_of_parent hp).trans hx) ?_
  rintro rfl
  exact hwf.not_under_parent hp hx

/-- The new node stands for nothing, and it is the last one. -/
theorem marker_of_marked (hwf : t.WellFormed) (hp : t.parent? n = some p) (hlast : t.nextSibling? n = none)
    (h : Marked t p m t') : t'.parent? m = some p ∧ t'.name m = "nop" ∧ t'.followingSiblings m = [] := by
  refine ⟨?_, ?_, ?_⟩
  · unfold Tree.parent?
    rw [h.self]
  · unfold Tree.name
    rw [h.self]
  · obtain ⟨before, after, hs⟩ := hwf.exists_split hp
    rw [hwf.nextSibling?_of_split hs, List.head?_eq_none_iff] at hlast
    subst hlast
    have hs' : t'.children p = (before ++ [n]) ++ m :: [] := by rw [h.children, hs]
    exact h.wellFormed.followingSiblings_of_split hs'

/-! ## Entering a loop -/

theorem outline_of_entered (he : Entered t n p t') {x : NodeId} (hx : t'.Live x) (hne : x ≠ p) :
    outline t' x = outline t x := by
  by_cases hxn : x = n
  · subst hxn
    unfold outline Tree.computed
    rw [he.self]
    rfl
  · exact outline_of_node (he.node x hx hxn hne)

section

variable (hwf : t.WellFormed) (hp : t.parent? n = some p) (he : Entered t n p t')

include hwf hp he

/-- What does not stand below a loop's parent is not dropped. -/
theorem live_of_outside {x : NodeId} (hx : t.Live x) (hout : ¬ Under t p x ∨ x = p) : t'.Live x := by
  refine (he.live x).mpr ⟨hx, fun c hc hu => ?_⟩
  have hpc := (Loop.parent?_of_mem_copies hwf hp hc).1
  rcases hout with hout | rfl
  · exact hout ((Tree.under_of_parent hpc).trans hu)
  · exact hwf.not_under_parent hpc hu

theorem beneath_of_entered : Beneath t p t' := by
  obtain ⟨hln, hlp⟩ := hwf.live_of_parent hp
  have hpn : p ≠ n := by
    rintro rfl
    exact hwf.not_under_parent hp .self
  have hcontent := he.content p (live_of_outside hwf hp he hlp (.inr rfl)) hpn
  refine ⟨he.wellFormed, fun x hx hout => live_of_outside hwf hp he hx hout,
    fun x hx hout => he.parent? x (live_of_outside hwf hp he hx hout), fun x hx hout => ?_,
    Tree.name_eq_of_content hcontent, Tree.attrs_eq_of_content hcontent,
    congrArg Computed.repeatId (Tree.computed_eq_of_content hcontent)⟩
  exact outline_of_entered he (live_of_outside hwf hp he hx (.inl hout)) fun heq => hout (heq ▸ .self)

/-- What stands below a sibling that is not dropped is not dropped. -/
theorem live_of_kept {i x : NodeId} (hi : t.parent? i = some p) (hkept : i ∉ copies t n) (hx : Under t i x) :
    t'.Live x := by
  refine (he.live x).mpr ⟨hwf.live_of_under (hwf.live_of_parent hi).1 hx, fun c hc hu => ?_⟩
  have heq := hwf.siblings_disjoint (Loop.parent?_of_mem_copies hwf hp hc).1 hi hu hx
  exact hkept (heq ▸ hc)

/-- Siblings that are not dropped stand for what they did. -/
theorem mirrorsAll_of_kept (hns : ∀ i ∈ ns, t.parent? i = some p ∧ i ∉ copies t n) (h : MirrorsAll outputs t ns es) :
    MirrorsAll outputs t' ns es := by
  refine h.congr hwf fun i hi x hx => ?_
  obtain ⟨hpi, hkept⟩ := hns i hi
  refine outline_of_entered he (live_of_kept hwf hp he hpi hkept hx) ?_
  rintro rfl
  exact hwf.not_under_parent hpi hx

/-- The body of a loop that is entered. -/
theorem body_of_entered (hm : MirrorsAll outputs t (t.children n) es) : MirrorsAll outputs t' (t'.children n) es := by
  have hself : t'.children n = t.children n := by
    unfold Tree.children
    rw [he.self]
  rw [hself]
  have hkept : n ∉ copies t n := fun hc => (Loop.parent?_of_mem_copies hwf hp hc).2 rfl
  refine hm.congr hwf fun i hi x hx => ?_
  have hu := (Tree.under_of_parent (hwf.mem_children.mp hi)).trans hx
  refine outline_of_entered he (live_of_kept hwf hp he hp hkept hu) ?_
  rintro rfl
  exact hwf.not_under_parent hp hu

variable (hname : t.name n = "repeat") (hid : (t.computed n).repeatId.isSome)

include hname hid

/-- The siblings of a loop that is entered: copies are dropped, and what then follows is no copy. -/
theorem split_of_entered : ∃ before after, t.children p = before ++ n :: (copies t n ++ after)
    ∧ t'.children p = before ++ n :: after ∧ (∀ c ∈ copies t n, IsCopy t n c) ∧ (∀ c ∈ after.head?, ¬ IsCopy t n c)
    ∧ ∀ i ∈ before ++ n :: after, t.parent? i = some p ∧ i ∉ copies t n := by
  obtain ⟨k, hk⟩ := Option.isSome_iff_exists.mp hid
  obtain ⟨before, after, hs, hs', hafter⟩ := Walk.siblings_of_entered hwf hp he
  refine ⟨before, after, hs, hs', fun c hc => ?_, fun c hc hcopy => ?_, fun i hi => ?_⟩
  · have hck : t.name c = "repeat" ∧ (t.computed c).repeatId = some k := by
      unfold Loop.copies at hc
      rw [hk] at hc
      have hboth := List.all_eq_true.mp List.all_takeWhile c hc
      rwa [Bool.and_eq_true, beq_iff_eq, beq_iff_eq] at hboth
    exact ⟨hname, hck.1, hck.2.trans hk.symm⟩
  · refine hafter c k hc hname ?_ ?_
    · unfold Tree.loopId?
      rw [if_pos hname, hk]
    · unfold Tree.loopId?
      rw [if_pos hcopy.2.1, hcopy.2.2, hk]
  · have hmem : i ∈ t'.children p := by rw [hs']; exact hi
    rw [he.siblings, List.mem_filter] at hmem
    refine ⟨hwf.mem_children.mp hmem.1, fun hc => ?_⟩
    simp [hc] at hmem

/-- A loop is entered. -/
theorem relisted_of_entered : Relisted outputs t p t' := by
  refine ⟨beneath_of_entered hwf hp he, fun es hes => ?_⟩
  obtain ⟨before, after, hs, hs', hcopies, hafter, hkept⟩ := split_of_entered hwf hp he hname hid
  rw [hs] at hes
  rw [hs']
  exact mirrorsAll_of_kept hwf hp he hkept (hes.drop_copies hname hcopies hafter)

/-- What stood behind the copies of the loop stands behind it. -/
theorem following_of_entered {traces rest : List NodeId} (hs : t.followingSiblings n = traces ++ rest)
    (htraces : ∀ m ∈ traces, IsTrace t n m) (hrest : ∀ m ∈ rest.head?, ¬ IsCopy t n m) (hm : MirrorsAll outputs t rest es) :
    MirrorsAll outputs t' (t'.followingSiblings n) es := by
  obtain ⟨before, after, hsplit, hsplit', hcopies, hafter, hkept⟩ := split_of_entered hwf hp he hname hid
  rw [hwf.followingSiblings_of_split hsplit] at hs
  have htraces' : ∀ m ∈ traces, IsCopy t n m := by
    intro m hm
    rcases htraces m hm with ⟨hitems, -⟩ | hcopy
    · rw [hname] at hitems
      exact absurd hitems (by decide)
    · exact hcopy
  obtain ⟨-, rfl⟩ := eq_of_copies hcopies hafter htraces' hrest hs
  rw [he.wellFormed.followingSiblings_of_split hsplit']
  exact mirrorsAll_of_kept hwf hp he (fun i hi => hkept i (by simp [hi])) hm

end

/-! ## Going on with a loop -/

/-- The node of the next run is no node that was there beside the loop. -/
theorem ne_of_advanced (h : Advanced t p a a' t') {x : NodeId} (hx : t.Live x) (hne : x ≠ a) : x ≠ a' := by
  rintro rfl
  rcases h.same with heq | hnot
  · exact hne heq
  · exact hnot hx

theorem outline_of_advanced (h : Advanced t p a a' t') {x : NodeId} (hx : t.Live x) (hne : x ≠ a) (hnp : x ≠ p) :
    outline t' x = outline t x :=
  outline_of_node (h.node x hx (ne_of_advanced h hx hne) hnp)

section

variable (hwf : t.WellFormed) (hp : t.parent? a = some p) (h : Advanced t p a a' t')

include hwf hp h

theorem beneath_of_advanced : Beneath t p t' := by
  obtain ⟨hla, hlp⟩ := hwf.live_of_parent hp
  have hpa : p ≠ a := by
    rintro rfl
    exact hwf.not_under_parent hp .self
  have hcontent := h.content p hlp (ne_of_advanced h hlp hpa)
  refine ⟨h.wellFormed, fun x hx _ => h.live x hx, fun x hx _ => h.parent? x hx, fun x hx hout => ?_,
    Tree.name_eq_of_content hcontent, Tree.attrs_eq_of_content hcontent,
    congrArg Computed.repeatId (Tree.computed_eq_of_content hcontent)⟩
  refine outline_of_advanced h hx ?_ ?_
  · rintro rfl
    exact hout (Tree.under_of_parent hp)
  · rintro rfl
    exact hout .self

/-- Siblings of a loop that goes on on a copy stand for what they did. -/
theorem mirrorsAll_of_copied (hnew : ¬ t.Live a') (hns : ∀ i ∈ ns, t.parent? i = some p) (hm : MirrorsAll outputs t ns es) :
    MirrorsAll outputs t' ns es := by
  refine mirrorsAll_of_children hwf hm hns fun x hne hx => ?_
  have hl := hwf.live_of_under (hwf.live_of_parent hp).2 hx
  exact outline_of_node (h.node x hl (fun heq => hnew (heq ▸ hl)) hne)

variable (hname : t.name a = "repeat")

include hname

/-- On the same node, the loop stands for what it did, and so does its body. -/
theorem patched_of_advanced (hsame : a' = a) (hplaced : t.name p = "item" → t.parent? p = none) :
    Patched outputs t a t' ∧ (∀ es, MirrorsAll outputs t (t.children a) es → MirrorsAll outputs t' (t'.children a) es)
      ∧ t'.children p = t.children p := by
  subst hsame
  obtain ⟨hla, hlp⟩ := hwf.live_of_parent hp
  have hpa : p ≠ a' := by
    rintro rfl
    exact hwf.not_under_parent hp .self
  have hbody : ∀ es, MirrorsAll outputs t (t.children a') es → MirrorsAll outputs t' (t'.children a') es := by
    intro es hm
    rw [h.body hla]
    refine mirrorsAll_of_children hwf hm (fun i hi => hwf.mem_children.mp hi) fun x hne hx => ?_
    refine outline_of_advanced h (hwf.live_of_under hla hx) hne ?_
    rintro rfl
    exact hwf.not_under_parent hp hx
  have hchildren : t'.children p = t.children p := by
    rcases h.siblings with ⟨-, hsame, -⟩ | ⟨before, after, -, hs⟩
    · exact hsame
    · have hnd := h.wellFormed.children_nodup p
      rw [hs] at hnd
      exact absurd List.mem_cons_self (List.nodup_cons.mp (List.nodup_append.mp hnd).2.1).1
  have houtline : outline t' p = outline t p := outline_of_content (h.content p hlp hpa) hchildren
  refine ⟨⟨⟨h.wellFormed, fun x hx _ => h.live x hx, fun x hx _ => h.parent? x hx, fun x hx hout => ?_, h.name,
    h.attrs, h.repeatId⟩, fun q hq => ?_, fun e hm => ?_⟩, hbody, hchildren⟩
  · by_cases hxp : x = p
    · rw [hxp]
      exact houtline
    · exact outline_of_advanced h hx (fun heq => hout (heq ▸ .self)) hxp
  · rw [hp] at hq
    cases hq
    exact hplaced
  · rw [mirrors_loop hname] at hm
    rw [mirrors_loop (h.name.trans hname), h.attrs, h.repeatId]
    exact ⟨hm.1, hm.2.1, hm.2.2.1, hm.2.2.2.1, hbody _ hm.2.2.2.2⟩

/-- What a loop that goes on does to the nodes around it and below it: they stand for what they did. -/
theorem kept_of_advanced (hplaced : t.name p = "item" → t.parent? p = none) : Relisted outputs t p t'
    ∧ (∀ es, MirrorsAll outputs t (t.children a) es → MirrorsAll outputs t' (t'.children a') es)
    ∧ ∀ es, MirrorsAll outputs t (t.followingSiblings a) es → MirrorsAll outputs t' (t'.followingSiblings a') es := by
  obtain ⟨hla, hlp⟩ := hwf.live_of_parent hp
  have hsiblings : ∀ {before after}, t.children p = before ++ a :: after →
      ∀ i ∈ before ++ a :: after, t.parent? i = some p := fun hs i hi => hwf.mem_children.mp (by rw [hs]; exact hi)
  rcases h.same with hsame | hnew
  · obtain ⟨before, after, hs⟩ := hwf.exists_split hp
    obtain ⟨hpat, hbody, hchildren⟩ : Patched outputs t a t' ∧ _ := patched_of_advanced hwf hp h hname hsame hplaced
    subst hsame
    refine ⟨hpat.relisted hwf hp, hbody, fun es hm => ?_⟩
    rw [hwf.followingSiblings_of_split hs] at hm
    rw [h.wellFormed.followingSiblings_of_split (hchildren.trans hs)]
    exact hpat.siblings_of hwf hp (fun i hi => hsiblings hs i (by simp [hi])) hm
  · have hne : a ≠ a' := fun heq => hnew (heq ▸ hla)
    -- the copy stands right behind the node of the run before
    obtain ⟨before, after, hs, hs'⟩ := h.siblings.resolve_left fun heq => hne heq.1.symm
    have hcopy : IsCopy t' a a' := by
      have hself : t'.content a = t.content a := h.content a hla hne
      have hself' : t'.name a = t.name a := Tree.name_eq_of_content hself
      have hid : (t'.computed a).repeatId = (t.computed a).repeatId :=
        congrArg Computed.repeatId (Tree.computed_eq_of_content hself)
      exact ⟨hself'.trans hname, h.name.trans hname, h.repeatId.trans hid.symm⟩
    refine ⟨⟨beneath_of_advanced hwf hp h, fun es hm => ?_⟩, fun es hm => ?_, fun es hm => ?_⟩
    · rw [hs] at hm
      rw [hs']
      exact (mirrorsAll_of_copied hwf hp h hnew (hsiblings hs) hm).add_copy hcopy
    · obtain ⟨fs, hfs, hfs'⟩ := h.copy hnew
      exact hm.of_twins (forall₂_of_holdsAll hfs hfs')
    · rw [hwf.followingSiblings_of_split hs] at hm
      rw [h.wellFormed.followingSiblings_of_split (x := before ++ [a]) (y := after) (by rw [hs']; simp)]
      exact mirrorsAll_of_copied hwf hp h hnew (fun i hi => hsiblings hs i (by simp [hi])) hm

end

end Stencil.Meaning
