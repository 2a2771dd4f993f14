/-
  Where a node goes that is moved behind another.

  `Tree.insertAfter` takes the place behind the anchor before it takes the node out.  All nodes but the one
  that is moved keep their parents and their order (`Moved`), whatever the place is: it only has to be one
  among the other children of the anchor's parent.

    * If the node does not stand before the anchor among the children of one parent, the place is right, and
      the node follows the anchor.
    * If it does, it leaves a gap before the anchor.  The place is then one too far: the child behind the anchor
      stays there and the node follows that child; and if there is no such child, there is no such place.
-/
import Stencil.Proofs.Tree.Copies

set_option autoImplicit false

namespace Stencil.Tree

variable {t : Tree} {anchor id n p : NodeId} {before after : List NodeId}

/-- `after` is the tree `t` in which `id` is a child of `p`, and all other nodes are as they were: they have
    the same contents and parents, and the children of each node are in the same order. -/
structure Moved (t : Tree) (p id : NodeId) (after : Tree) : Prop where
  wellFormed : WellFormed after
  live : ∀ n, after.Live n ↔ t.Live n
  content : ∀ n, after.content n = t.content n
  parent?_self : after.parent? id = some p
  parent? : ∀ n, n ≠ id → after.parent? n = t.parent? n
  order : ∀ q, (after.children q).erase id = (t.children q).erase id

/-- A node is put at a place among the other children of `p`. -/
theorem WellFormed.moved_attachAt (h : WellFormed t) (hid : t.Live id) (hp : t.Live p)
    (hout : ¬ Under t id p) (place : Nat) : Moved t p id ((t.detach id).attachAt p place id) := by
  have hother : id ∉ (t.detach id).children p := by
    rw [h.children_detach, (h.children_nodup p).mem_erase_iff]
    exact fun hm => hm.1 rfl
  have hperm : (((t.detach id).children p).take place ++ id :: ((t.detach id).children p).drop place).Perm
      (id :: (t.detach id).children p) := by
    refine List.perm_middle.trans (List.Perm.of_eq ?_)
    rw [List.take_append_drop]
  refine ⟨h.moved hid hp hout hperm, fun n => ?_, fun n => ?_, ?_, fun n hn => ?_, fun q => ?_⟩
  · exact live_attach.trans live_detach
  · exact content_attach.trans content_detach
  · exact (parent?_attach (live_detach.mpr hid)).trans (if_pos rfl)
  · refine (parent?_attach (live_detach.mpr hid)).trans ((if_neg hn).trans ?_)
    rw [h.parent?_detach, if_neg hn]
  · have hch : ((t.detach id).attachAt p place id).children q
        = if q = p then ((t.detach id).children q).take place ++ id :: ((t.detach id).children q).drop place
          else (t.detach id).children q := children_attach (live_detach.mpr hp)
    rw [hch, ← h.children_detach]
    split
    · rename_i hq
      have hnot : id ∉ ((t.detach id).children q).take place :=
        fun hm => hother (hq ▸ List.mem_of_mem_take hm)
      rw [List.erase_append_right _ hnot, List.erase_cons_head, List.take_append_drop]
    · rw [h.children_detach, List.erase_of_not_mem]
      rw [(h.children_nodup q).mem_erase_iff]
      exact fun hm => hm.1 rfl

/-- Where the node is put, if there is such a place. -/
theorem WellFormed.insertAfter_of_split (h : WellFormed t) (hs : t.children p = before ++ anchor :: after)
    (id : NodeId) :
    t.insertAfter anchor id
      = if before.length + 1 ≤ ((t.children p).erase id).length
        then .ok ((t.detach id).attachAt p (before.length + 1) id)
        else .error (.of (.placeBeyondEnd (before.length + 1) ((t.children p).erase id).length)) := by
  unfold Tree.insertAfter
  rw [h.position?_of_split hs]
  dsimp only
  rw [h.children_detach]

/-- The children of the parent are the others, parted at the place. -/
theorem WellFormed.children_attachAt_detach (h : WellFormed t) (hp : t.Live p) (place : Nat) (id : NodeId) :
    ((t.detach id).attachAt p place id).children p
      = ((t.children p).erase id).take place ++ id :: ((t.children p).erase id).drop place := by
  rw [← h.children_detach]
  exact (children_attach (live_detach.mpr hp)).trans (if_pos rfl)

/-- A node that stands elsewhere, or behind the anchor, is put right behind the anchor. -/
theorem WellFormed.insertAfter_behind (h : WellFormed t) (hs : t.children p = before ++ anchor :: after)
    (hid : t.Live id) (hout : ¬ Under t id anchor) (hbefore : id ∉ before) :
    ∃ t', t.insertAfter anchor id = .ok t' ∧ Moved t p id t' ∧ t'.nextSibling? anchor = some id := by
  have ha : t.parent? anchor = some p := h.mem_children.mp (by rw [hs]; simp)
  have hp : t.Live p := (h.live_of_parent ha).2
  have hne : anchor ≠ id := by
    rintro rfl
    exact hout .self
  have hothers : (t.children p).erase id = before ++ anchor :: after.erase id := by
    rw [hs, List.erase_append_right _ hbefore, List.erase_cons_tail (by simpa using hne)]
  have hmoved := h.moved_attachAt hid hp (fun hu => hout (hu.trans (under_of_parent ha))) (before.length + 1)
  refine ⟨_, ?_, hmoved, ?_⟩
  · rw [h.insertAfter_of_split hs, hothers, if_pos (by simp)]
  · have hch := h.children_attachAt_detach hp (before.length + 1) id
    rw [hothers, List.take_length_add_append, List.drop_length_add_append, List.append_assoc] at hch
    exact hmoved.wellFormed.nextSibling?_of_split hch

/-- A node that stands before the anchor leaves a gap there, so that the place is one too far. -/
theorem WellFormed.insertAfter_too_far {next : NodeId} {rest : List NodeId} (h : WellFormed t)
    (hs : t.children p = before ++ anchor :: next :: rest) (hid : t.Live id) (hout : ¬ Under t id anchor)
    (hbefore : id ∈ before) :
    ∃ t', t.insertAfter anchor id = .ok t' ∧ Moved t p id t' ∧ t'.nextSibling? anchor = some next
      ∧ t'.nextSibling? next = some id := by
  have ha : t.parent? anchor = some p := h.mem_children.mp (by rw [hs]; simp)
  have hp : t.Live p := (h.live_of_parent ha).2
  have hothers : (t.children p).erase id = before.erase id ++ anchor :: next :: rest := by
    rw [hs, List.erase_append_left _ hbefore]
  have hplace : before.length + 1 = (before.erase id).length + 2 := by
    have hpos := List.length_pos_of_mem hbefore
    rw [List.length_erase_of_mem hbefore]
    omega
  rw [h.insertAfter_of_split hs, hplace, hothers, if_pos (by simp)]
  have hmoved := h.moved_attachAt hid hp (fun hu => hout (hu.trans (under_of_parent ha)))
    ((before.erase id).length + 2)
  have hch : ((t.detach id).attachAt p ((before.erase id).length + 2) id).children p
      = before.erase id ++ anchor :: next :: id :: rest := by
    rw [h.children_attachAt_detach hp, hothers, List.take_length_add_append, List.drop_length_add_append,
      List.append_assoc]
    rfl
  refine ⟨_, rfl, hmoved, hmoved.wellFormed.nextSibling?_of_split hch, ?_⟩
  have hsplit := hch.trans (List.append_cons _ _ _)
  exact hmoved.wellFormed.nextSibling?_of_split hsplit

/-- If the anchor is the last child, there is no place one too far. -/
theorem WellFormed.insertAfter_beyond_end (h : WellFormed t) (hs : t.children p = before ++ [anchor])
    (hbefore : id ∈ before) :
    t.insertAfter anchor id
      = .error (.of (.placeBeyondEnd (t.children p).length ((t.children p).length - 1))) := by
  have hm : id ∈ t.children p := by
    rw [hs]
    exact List.mem_append_left _ hbefore
  have hlength : (t.children p).length = before.length + 1 := by
    rw [hs, List.length_append, List.length_singleton]
  rw [h.insertAfter_of_split hs, List.length_erase_of_mem hm, hlength, if_neg (by omega)]

/-- Moving a live node behind another that does not stand below it fails if the other one is a root.  The node
    follows the other one then, unless it has stood before it among the children of the same parent: then it
    is put one place too far, if there is such a place. -/
theorem insertAfter_moves (h : WellFormed t) (hid : t.Live id) (hout : ¬ Under t id anchor) :
    (t.parent? anchor = none → t.insertAfter anchor id = .error (.of .siblingOfRoot))
      ∧ ∀ p, t.parent? anchor = some p →
          (id ∉ t.precedingSiblings anchor →
            ∃ t', t.insertAfter anchor id = .ok t' ∧ Moved t p id t' ∧ t'.nextSibling? anchor = some id)
          ∧ (id ∈ t.precedingSiblings anchor →
            (∀ next, t.nextSibling? anchor = some next →
              ∃ t', t.insertAfter anchor id = .ok t' ∧ Moved t p id t'
                ∧ t'.nextSibling? anchor = some next ∧ t'.nextSibling? next = some id)
            ∧ (t.nextSibling? anchor = none → t.insertAfter anchor id
                = .error (.of (.placeBeyondEnd (t.children p).length ((t.children p).length - 1))))) := by
  refine ⟨fun hroot => ?_, fun p ha => ?_⟩
  · unfold insertAfter position?
    rw [hroot]
  · obtain ⟨before, after, hs⟩ := h.exists_split ha
    rw [h.precedingSiblings_of_split hs, List.mem_reverse, h.nextSibling?_of_split hs]
    refine ⟨h.insertAfter_behind hs hid hout, fun hbefore => ⟨fun next hnext => ?_, fun hlast => ?_⟩⟩
    · obtain ⟨rest, rfl⟩ := List.head?_eq_some_iff.mp hnext
      exact h.insertAfter_too_far hs hid hout hbefore
    · rw [List.head?_eq_none_iff.mp hlast] at hs
      exact h.insertAfter_beyond_end hs hbefore

/-- A root with the children 1, 2 and 3. -/
def threeChildren : Tree :=
  ofElement (.mk "f" [] "" .none [.mk "n" [] "" .none [], .mk "a" [] "" .none [], .mk "b" [] "" .none []])

theorem wellFormed_threeChildren : WellFormed threeChildren := (grafted_ofElement _).wellFormed

/-- What is not among the nodes below another does not stand below it. -/
theorem WellFormed.not_under (h : WellFormed t) {a : NodeId} (hne : n ≠ a) (hn : n ∉ t.descendants a) :
    ¬ Under t a n :=
  fun hu => hn (h.mem_descendants.mpr ⟨hu, hne⟩)

/-- Of three children, the last one can be put behind the first one, and the first one behind the second one ends
    up behind the third one. -/
theorem insertAfter_moves_among_three :
    (∃ t', threeChildren.insertAfter 1 3 = .ok t' ∧ t'.nextSibling? 1 = some 3)
      ∧ (∃ t', threeChildren.insertAfter 2 1 = .ok t' ∧ t'.nextSibling? 3 = some 1)
      ∧ threeChildren.insertAfter 3 1 = .error (.of (.placeBeyondEnd 3 2)) := by
  have h := wellFormed_threeChildren
  refine ⟨?_, ?_, ?_⟩
  · have hid : threeChildren.Live 3 := by decide +kernel
    have hout : ¬ Under threeChildren 3 1 := h.not_under (by decide) (by decide +kernel)
    obtain ⟨hlater, -⟩ := (insertAfter_moves h hid hout).2 0 (by decide +kernel)
    obtain ⟨t', hdone, -, hnext⟩ := hlater (by decide +kernel)
    exact ⟨t', hdone, hnext⟩
  · have hid : threeChildren.Live 1 := by decide +kernel
    have hout : ¬ Under threeChildren 1 2 := h.not_under (by decide) (by decide +kernel)
    obtain ⟨-, hearlier⟩ := (insertAfter_moves h hid hout).2 0 (by decide +kernel)
    obtain ⟨t', hdone, -, -, hnext⟩ := (hearlier (by decide +kernel)).1 3 (by decide +kernel)
    exact ⟨t', hdone, hnext⟩
  · have hid : threeChildren.Live 1 := by decide +kernel
    have hout : ¬ Under threeChildren 1 3 := h.not_under (by decide) (by decide +kernel)
    obtain ⟨-, hearlier⟩ := (insertAfter_moves h hid hout).2 0 (by decide +kernel)
    exact (hearlier (by decide +kernel)).2 (by decide +kernel)

/-- Not every node that can be moved behind another follows it then: it can have stood before it. -/
theorem earlier_sibling_does_not_follow :
    ¬ ∀ (t : Tree) (anchor id p : NodeId), WellFormed t → t.Live anchor → t.parent? anchor = some p →
        t.Live id → ¬ Under t id anchor →
        ∃ t', t.insertAfter anchor id = .ok t' ∧ t'.nextSibling? anchor = some id := by
  intro hall
  have h := wellFormed_threeChildren
  obtain ⟨t', hdone, hnext⟩ := hall threeChildren 2 1 0 h (by decide +kernel) (by decide +kernel)
    (by decide +kernel) (h.not_under (by decide) (by decide +kernel))
  have hplaced : (threeChildren.insertAfter 2 1).toOption.bind (·.nextSibling? 2) = some 3 := by decide +kernel
  rw [hdone] at hplaced
  have h13 : some 1 = some 3 := hnext.symm.trans hplaced
  exact absurd h13 (by decide)

end Stencil.Tree
