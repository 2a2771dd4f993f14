/-
  Where a walk stands.

  A walk moves among the children of a node.  It keeps a key, a stack of loops and the positions to which
  it will come back, all apart from the tree; `Standing` says what they have to do with the nodes above.
  Each group above has a position on the scan, which leads out of it; each loop above is on the stack of
  loops, and the run it is in shows in the `seq` of its node.

    * From this the key and the loops can be read off the tree (`Standing.key_eq`, `Standing.anchors_eq`).
    * It depends on little: on the parents, names and attributes of the nodes above, and on where the
      positions stand (`Standing.transfer`).  Writing fields does not touch it (`Standing.of_keepsShape`).
-/
import Stencil.Proofs.Tree.Frame
import Stencil.Walk.Basic

set_option autoImplicit false

namespace Stencil.Walk

open Stencil.Tree (Under Inner KeepsShape)

variable {t t' : Tree} {root n p q : NodeId} {key : String} {loops : List Loop}
  {scan : List Position}

/-! ## Standing among the children of a node -/

/-- The walk of the document with some root stands among the children of `p`. -/
inductive Standing (t : Tree) (root : NodeId) :
    NodeId → String → List Loop → List Position → Prop
  /-- Directly below the root. -/
  | top : Standing t root root "" [] []
  /-- In a group, which is left for a position behind it. -/
  | group {p q next : NodeId} {key inner : String} {loops : List Loop} {scan : List Position}
      (outer : Standing t root q key loops scan) (parent : t.parent? p = some q)
      (name : t.name p = "items") (key_eq : inner = t.keyPath key p)
      (back : t.parent? next = some q) :
      Standing t root p inner loops (⟨key, next⟩ :: scan)
  /-- In a run of a loop. -/
  | loop {p q : NodeId} {key inner : String} {l : Loop} {loops : List Loop} {scan : List Position}
      (outer : Standing t root q key loops scan) (parent : t.parent? p = some q)
      (name : t.name p = "repeat") (key_eq : inner = t.keyPath key p) (anchor : l.anchor = p)
      (loop_key : l.key = key) (bodyKey : l.bodyKey = inner)
      (seq : (t.computed p).seq = some (l.count - 1)) (started : 1 ≤ l.count) :
      Standing t root p inner (l :: loops) scan

namespace Standing

theorem inner (h : Standing t root p key loops scan) : Inner t root p := by
  induction h with
  | top => exact .root
  | group _ hp hn _ _ ih => exact .step ih hp (.inl hn)
  | loop _ hp hn _ _ _ _ _ _ ih => exact .step ih hp (.inr hn)

/-- The nodes from a node up to its root, without the root. -/
def between (t : Tree) (p : NodeId) : List NodeId := (p :: t.ancestors p).dropLast

theorem between_root (hr : t.parent? root = none) : between t root = [] := by
  unfold between
  rw [Tree.ancestors_of_root hr]
  rfl

theorem between_child (hwf : t.WellFormed) (hp : t.parent? p = some q) :
    between t p = p :: between t q := by
  unfold between
  rw [hwf.ancestors_of_parent hp]
  rfl

/-- The `name` attribute of a node; the empty text if it has none. -/
def label (t : Tree) (n : NodeId) : String := (t.attr? n "name").getD ""

/-- The key that the `name` attributes of nodes make, the innermost node first. -/
def keyOf (t : Tree) (ns : List NodeId) : String :=
  "/".intercalate ((ns.reverse.map (label t)).filter (!·.isEmpty))

theorem keyOf_cons (ns : List NodeId) (hk : keyOf t ns = key)
    (hne : key = "" → (ns.reverse.map (label t)).filter (!·.isEmpty) = []) :
    keyOf t (p :: ns) = t.keyPath key p := by
  unfold keyOf at hk ⊢
  rw [List.reverse_cons, List.map_append, List.filter_append]
  unfold Tree.keyPath
  show _ = if (label t p).isEmpty then key
    else if key.isEmpty then label t p else key ++ "/" ++ label t p
  by_cases hl : (label t p).isEmpty
  · have hs : ([p].map (label t)).filter (!·.isEmpty) = [] := by simp [hl]
    rw [if_pos hl, hs, List.append_nil]
    exact hk
  · rw [if_neg hl]
    have hs : ([p].map (label t)).filter (!·.isEmpty) = [label t p] := by simp [hl]
    rw [hs]
    by_cases hkey : key.isEmpty
    · rw [if_pos hkey, hne (String.isEmpty_iff.mp hkey)]
      simp
    · rw [if_neg hkey, String.intercalate_append_of_ne_nil ?_ (by simp), hk]
      · simp
      · intro hnil
        rw [hnil] at hk
        rw [← hk] at hkey
        simp at hkey

theorem keyOf_eq_empty {ns : List NodeId} (h : keyOf t ns = "") :
    (ns.reverse.map (label t)).filter (!·.isEmpty) = [] := by
  unfold keyOf at h
  generalize hl : (ns.reverse.map (label t)).filter (!·.isEmpty) = l at h
  cases l with
  | nil => rfl
  | cons s ss =>
    have hs : s ∈ (ns.reverse.map (label t)).filter (!·.isEmpty) := by rw [hl]; simp
    have hne : s.isEmpty = false := by simpa using (List.mem_filter.mp hs).2
    have hsne : s ≠ "" := by
      intro he
      rw [he] at hne
      simp at hne
    cases ss with
    | nil => rw [String.intercalate_singleton] at h; exact absurd h hsne
    | cons s' ss =>
      rw [String.intercalate_cons_cons] at h
      simp [String.append_eq_empty_iff] at h

/-- The key is made of the names of the nodes above. -/
theorem key_eq (hwf : t.WellFormed) (hr : t.parent? root = none)
    (h : Standing t root p key loops scan) : key = keyOf t (between t p) := by
  induction h with
  | top => rw [between_root hr]; rfl
  | group _ hp _ hk _ ih =>
    rw [hk, between_child hwf hp, keyOf_cons _ ih.symm fun he => keyOf_eq_empty (he ▸ ih.symm)]
  | loop _ hp _ hk _ _ _ _ _ ih =>
    rw [hk, between_child hwf hp, keyOf_cons _ ih.symm fun he => keyOf_eq_empty (he ▸ ih.symm)]

/-- The loops on the stack are those of the nodes above. -/
theorem anchors_eq (hwf : t.WellFormed) (hr : t.parent? root = none)
    (h : Standing t root p key loops scan) :
    loops.map Loop.anchor = (between t p).filter fun a => t.name a == "repeat" := by
  induction h with
  | top => rw [between_root hr]; rfl
  | group _ hp hn _ _ ih =>
    rw [between_child hwf hp, List.filter_cons_of_neg (by rw [hn]; decide), ih]
  | loop _ hp hn _ ha _ _ _ _ ih =>
    rw [between_child hwf hp, List.filter_cons_of_pos (by rw [hn]; decide), List.map_cons, ih, ha]

/-! ## What it depends on -/

/-- A node is in `t'` what it is in `t`, as far as a walk below it is concerned. -/
structure Alike (t t' : Tree) (n : NodeId) : Prop where
  parent? : t'.parent? n = t.parent? n
  name : t'.name n = t.name n
  attrs : (t'.node n).attrs = (t.node n).attrs
  seq : (t'.computed n).seq = (t.computed n).seq

theorem Alike.keyPath (h : Alike t t' n) (key : String) : t'.keyPath key n = t.keyPath key n := by
  unfold Tree.keyPath Tree.attr?
  rw [h.attrs]

theorem transfer (hwf : t.WellFormed) (h : Standing t root p key loops scan)
    (hsame : ∀ m, Under t m p → Alike t t' m)
    (hback : ∀ m q, Under t q p → q ≠ p → t.parent? m = some q → t'.parent? m = some q) :
    Standing t' root p key loops scan := by
  induction h with
  | top => exact .top
  | @group p q next key inner loops scan outer hp hn hk hb ih =>
    have hqp : Under t q p := Tree.under_of_parent hp
    have ha := hsame p .self
    refine .group (ih (fun m hm => hsame m (hm.trans hqp)) fun m q' hq' _ hm => ?_)
      (ha.parent?.trans hp) (ha.name.trans hn) (hk.trans (ha.keyPath key).symm)
      (hback next q hqp (hwf.parent_ne hp) hb)
    refine hback m q' (hq'.trans hqp) ?_ hm
    rintro rfl
    exact hwf.not_under_parent hp hq'
  | @loop p q key inner l loops scan outer hp hn hk hl hlk hb hs hc ih =>
    have hqp : Under t q p := Tree.under_of_parent hp
    have ha := hsame p .self
    refine .loop (ih (fun m hm => hsame m (hm.trans hqp)) fun m q' hq' _ hm => ?_)
      (ha.parent?.trans hp) (ha.name.trans hn) (hk.trans (ha.keyPath key).symm) hl hlk hb
      (ha.seq.trans hs) hc
    refine hback m q' (hq'.trans hqp) ?_ hm
    rintro rfl
    exact hwf.not_under_parent hp hq'

end Standing

/-! ## Frames -/

/-- The walk of a document is between two runs: it is over, or it goes on at the first position. -/
inductive Paused (t : Tree) (root : NodeId) : List Loop → List Position → Prop
  | ended : Paused t root [] []
  | at {q : NodeId} {loops : List Loop} {pos : Position} {scan : List Position}
      (standing : Standing t root q pos.key loops scan) (parent : t.parent? pos.node = some q) :
      Paused t root loops (pos :: scan)

/-- A run of siblings below `p`. -/
structure Running (t : Tree) (root p : NodeId) (r : Run) (loops : List Loop) (scan : List Position) :
    Prop where
  standing : Standing t root p r.key loops scan
  first : t.parent? r.first = some p
  base : r.base = scan.length
  next : ∀ n, r.next = some n → t.parent? n = some p ∧ r.first ∉ t.followingSiblings n

/-- Where the walk of one document stands. -/
def Placed (t : Tree) (root : NodeId) (f : Frame) : Prop :=
  match f.run with
  | some r => ∃ p, Running t root p r f.loops f.scan
  | none => Paused t root f.loops f.scan

/-- At the end of a run in a group, or directly below the root, the walk is between two runs. -/
theorem Standing.paused (h : Standing t root p key loops scan)
    (hp : t.name p ≠ "repeat" ∨ loops = []) : Paused t root loops scan := by
  cases h with
  | top => exact .ended
  | group outer _ _ _ back => exact .at outer back
  | loop _ _ hn =>
    rcases hp with hp | hp
    · exact absurd hn hp
    · cases hp

/-- In a loop, the innermost loop on the stack is the loop. -/
theorem Standing.cases_repeat {l : Loop} (h : Standing t root p key (l :: loops) scan)
    (hp : t.name p = "repeat") :
    ∃ q, Standing t root q l.key loops scan ∧ t.parent? p = some q ∧ l.anchor = p
      ∧ l.bodyKey = t.keyPath l.key p ∧ (t.computed p).seq = some (l.count - 1) ∧ 1 ≤ l.count := by
  cases h with
  | group _ _ hn =>
    rw [hp] at hn
    exact absurd hn (by decide)
  | loop outer parent _ hk ha hlk hb hs hc =>
    subst hlk
    exact ⟨_, outer, parent, ha, hb.trans hk, hs, hc⟩

/-- In a loop there is a loop on the stack. -/
theorem Standing.loops_ne_nil (h : Standing t root p key loops scan) (hp : t.name p = "repeat")
    (hr : t.name root ≠ "repeat") : loops ≠ [] := by
  cases h with
  | top => exact absurd hp hr
  | group _ _ hn =>
    rw [hp] at hn
    exact absurd hn (by decide)
  | loop => exact List.cons_ne_nil _ _

/-! ## Fields are written -/

section

variable (hwf : t.WellFormed) (hwf' : t'.WellFormed) (hl : t.Live root)
  (hr : t.parent? root = none) (hk : KeepsShape (Inner t root) t t')

include hwf hwf' hk in
theorem parent?_of_keepsShape (hq : Inner t root q) (hn : t.parent? n = some q) :
    t'.parent? n = some q := by
  rw [← hwf'.mem_children, hk.children hq]
  exact hwf.mem_children.mpr hn

include hwf hwf' hl hr hk

theorem Standing.of_keepsShape (h : Standing t root p key loops scan) :
    Standing t' root p key loops scan := by
  have hup := (Tree.trunk_inner hwf hl hr).toUpward
  refine h.transfer hwf (fun m hm => ?_) fun m q hq _ hm => ?_
  · have hi := hup.of_under hm h.inner
    exact ⟨hk.parent? hi, hk.name hi, hk.attrs hi, hk.seq hi⟩
  · exact parent?_of_keepsShape hwf hwf' hk (hup.of_under hq h.inner) hm

theorem Paused.of_keepsShape (h : Paused t root loops scan) : Paused t' root loops scan := by
  cases h with
  | ended => exact .ended
  | «at» hs hp =>
    exact .at (hs.of_keepsShape hwf hwf' hl hr hk) (parent?_of_keepsShape hwf hwf' hk hs.inner hp)

theorem Running.of_keepsShape {r : Run} (h : Running t root p r loops scan) :
    Running t' root p r loops scan where
  standing := h.standing.of_keepsShape hwf hwf' hl hr hk
  first := parent?_of_keepsShape hwf hwf' hk h.standing.inner h.first
  base := h.base
  next := by
    intro n hn
    obtain ⟨hp, hf⟩ := h.next n hn
    have hch := hk.children h.standing.inner
    refine ⟨parent?_of_keepsShape hwf hwf' hk h.standing.inner hp, ?_⟩
    obtain ⟨before, after, hs⟩ := hwf.exists_split hp
    rw [hwf.followingSiblings_of_split hs] at hf
    rw [hwf'.followingSiblings_of_split (hch.trans hs)]
    exact hf

theorem Placed.of_keepsShape {f : Frame} (h : Placed t root f) : Placed t' root f := by
  unfold Placed at h ⊢
  split
  · rename_i r hrun
    simp only [hrun] at h
    obtain ⟨p, h⟩ := h
    exact ⟨p, h.of_keepsShape hwf hwf' hl hr hk⟩
  · rename_i hrun
    simp only [hrun] at h
    exact h.of_keepsShape hwf hwf' hl hr hk

end

end Stencil.Walk
