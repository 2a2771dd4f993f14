/-
  What is left behind of a document that has been read for its walk.

  A document that is read while the walk comes to its import is put into the tree, walked, and given up at its
  end: its root, and all that hangs on it.  What it has been given on the way goes with it, but for one thing: the
  children that a value has cut off.

    1. All that lived before the document was read is a set of whole documents, and the walk is outside it until the
       document ends (`Away.outside`).  So nothing of it is given up with the document.
    2. Behind that, a node that did not live before hangs on nothing that the walk knows of: it is adrift
       (`Adrift`).
    3. What is adrift is such a set, too.  So nobody comes to it any more, and nobody gives it up
       (`Adrift.round`).

  The tree has grown by as many nodes as are newly adrift (`growth_behind_import`), so by none exactly if no value
  has cut anything off.
-/
import Stencil.Proofs.Tree.History
import Stencil.Proofs.Walk.Outside

set_option autoImplicit false

namespace Stencil.Walk

open Stencil.Tree (Under Closed)
open Relation (ReflTransGen)

variable {t : Tree} {P : NodeId → Prop} {roots : List NodeId} {root m : NodeId} {w w₀ w₁ w' : Walk} {o : Options}
  {even : Prop} {progress : Progress} {s : Setup}

/-! ## Imports that read -/

/-- In the round behind the state `w`, the walk comes to an import of a document that is read for it; it does so in
    the state `w₀`. -/
def Imports (o : Options) (w w₀ : Walk) : Prop :=
  ∃ g r n, TakesUp o w g r w₀ ∧ r.next = some n ∧ w₀.space.tree.name n = "import"
    ∧ w₀.space.tree.attr? n "type" = some "dynamic"

/-- The round behind the state `w` has gone into a document, and the walk is in it, or has just come back from it. -/
inductive Away (o : Options) (w : Walk) : Walk → Prop
  | entered {w' : Walk} {progress : Progress} (h : round o w = .ok progress w') : Away o w w'
  | round {w₁ w' : Walk} {progress : Progress} (before : Away o w w₁)
      (deeper : w.frames.length < w₁.frames.length) (h : round o w₁ = .ok progress w') : Away o w w'

theorem Away.reached (ha : Away o w w') (h : Reached o s w) : Reached o s w' := by
  induction ha with
  | entered hr => exact .round h hr
  | round _ _ hr ih => exact .round ih hr

/-- A document that is read is outside all that lived before. -/
theorem Imports.outside (hi : Imports o w w₀) (hc : Coherent even w roots) (hr : Walk.round o w = .ok progress w') :
    Outside even w₀.space.tree.Live (documents w) roots w' := by
  obtain ⟨g, r, n, ht, hn, hname, htype⟩ := hi
  rw [round_of_takesUp ht, hn] at hr
  obtain ⟨w₁, f, more, hrot₁, hf, ht, rfl⟩ := ht
  obtain ⟨hc₁, -, hrot⟩ := hc.rotate hrot₁
  have hdocs := hc.documents_rotate hrot₁
  have hs := hc₁.stack
  rw [hf] at hs
  obtain ⟨root, rs, rfl⟩ := hs.roots_cons
  obtain ⟨p, hvisiting, hroots, hsees⟩ := hc₁.aboutToVisit hf ht hn
  have hP := Tree.closed_live hc₁.wellFormed
  rw [← hdocs]
  refine hc₁.outside_advance hf ht hrot hn (fun v w₂ hv => ?_) hr
  rw [Walk.visit, Action.get_bind_eq_ok] at hv
  obtain ⟨tag, htag, hv⟩ := Action.ofExcept_bind_eq_ok.mp hv
  have htag := (tagOf_ok htag).symm.trans hname
  cases tag with
  | document =>
    obtain ⟨hk, hnew⟩ := keeps_visitImport hvisiting.wellFormed hP hc₁.docs
      (fun _ hcomb => absurd (htype.symm.trans hcomb) (by decide)) hv
    exact ⟨hk.closed hP hc₁.wellFormed (hvisiting.around_document hroots hc₁.docs hsees hv).1.wellFormed, hnew⟩
  | _ => exact absurd htag (by decide)

/-- As long as a document that has been read is walked, and when it ends, too. -/
theorem Away.outside (ha : Away o w w') (hi : Imports o w w₀) (h : Reached o s w) (hc : Coherent s.Fresh w roots) :
    Outside s.Fresh w₀.space.tree.Live (documents w) roots w' := by
  have hroots : roots ≠ [] := by
    obtain ⟨g, r, n, ⟨w₁, f, more, hrot, hf, -⟩, -⟩ := hi
    obtain ⟨hc₁, -⟩ := hc.rotate hrot
    have hs := hc₁.stack
    rw [hf] at hs
    obtain ⟨root, rs, rfl⟩ := hs.roots_cons
    exact List.cons_ne_nil _ _
  induction ha with
  | entered hr => exact hi.outside hc hr
  | @round w₁ w' progress before deeper hr ih =>
    obtain ⟨news, hc₁, hnews⟩ := ih.walked
    -- the walk is in one of the documents outside
    have hlt := deeper
    rw [hc.stack.length_eq, hc₁.stack.length_eq, List.length_append] at hlt
    obtain ⟨d, ds, rfl⟩ := List.exists_cons_of_length_pos (l := news) (by omega)
    have hround := hc₁.outside_round (fun he => absurd (List.append_eq_nil_iff.mp he).2 hroots)
      (fun n hn => (before.reached h).atWriter hc₁ hn) ih.closed (hnews d List.mem_cons_self) hr
    rw [ih.documents] at hround
    exact hround.outward fun d' hd' => hnews d' (List.mem_cons_of_mem _ hd')

/-! ## What is left behind -/

/-- The node lives, but the walk can no longer come to it: it hangs on no document that is walked, and on no secondary
    one. -/
structure Adrift (w : Walk) (m : NodeId) : Prop where
  live : w.space.tree.Live m
  walked : ∀ f ∈ w.frames, ∀ root, rootOf (documents w) f = some root → ¬ Under w.space.tree root m
  secondary : ∀ d ∈ documents w, ¬ Under w.space.tree d m

/-- Each document that is walked has a frame. -/
theorem Stack.exists_frame {docs : List NodeId} {frames : List Frame} (h : Stack t docs frames roots)
    (hr : root ∈ roots) : ∃ f ∈ frames, rootOf docs f = some root := by
  induction h with
  | nil => cases hr
  | main _ _ hfound =>
    rw [List.mem_singleton.mp hr]
    exact ⟨_, List.mem_singleton_self _, hfound⟩
  | «import» _ _ _ _ hfound _ _ _ ih =>
    rcases List.mem_cons.mp hr with rfl | hr
    · exact ⟨_, List.mem_cons_self, hfound⟩
    · obtain ⟨f, hf, hfound'⟩ := ih hr
      exact ⟨f, List.mem_cons_of_mem _ hf, hfound'⟩

theorem Coherent.adrift_iff (hc : Coherent even w roots) : Adrift w m ↔ w.space.tree.Live m
    ∧ ∀ d, d ∈ roots ∨ d ∈ documents w → ¬ Under w.space.tree d m := by
  constructor
  · rintro ⟨hl, hwalked, hsecondary⟩
    refine ⟨hl, fun d hd => hd.elim (fun hd => ?_) (hsecondary d)⟩
    obtain ⟨f, hf, hroot⟩ := hc.stack.exists_frame hd
    exact hwalked f hf d hroot
  · rintro ⟨hl, hnot⟩
    refine ⟨hl, fun f hf root hroot => ?_, fun d hd => hnot d (.inr hd)⟩
    obtain ⟨r, hr, hroot', -⟩ := hc.stack.exists_root hf
    obtain rfl := Option.some.inj (hroot.symm.trans hroot')
    exact hnot root (.inl hr)

/-- What hangs together is adrift together. -/
theorem Coherent.closed_adrift (hc : Coherent even w roots) : Closed w.space.tree (Adrift w) := by
  have hwf := hc.wellFormed
  have hroot : ∀ d, d ∈ roots ∨ d ∈ documents w → IsRoot w.space.tree d :=
    fun d hd => hd.elim (fun hd => hc.stack.isRoot hd) (hc.docs d)
  refine ⟨⟨fun m hm => hm.live, fun m q hm hq => ?_⟩, fun q m hm hq => ?_⟩
  · rw [hc.adrift_iff] at hm ⊢
    exact ⟨(hwf.live_of_parent hq).2, fun d hd hu => hm.2 d hd (.child hq hu)⟩
  · rw [hc.adrift_iff] at hm ⊢
    refine ⟨(hwf.live_of_parent hq).1, fun d hd hu => hm.2 d hd (hu.of_parent hq ?_)⟩
    rintro rfl
    rw [(hroot m hd).parent?] at hq
    cases hq

/-- What is adrift stays so: no round gives it up, or puts it back. -/
theorem Adrift.round (hm : Adrift w m) (h : Reached o s w) (hr : Walk.round o w = .ok progress w') : Adrift w' m := by
  obtain ⟨roots, hc⟩ := h.coherent
  have hP := hc.closed_adrift
  have hout : ∀ d, d ∈ roots ∨ d ∈ documents w → ¬ Adrift w d :=
    fun d hd hd' => (hc.adrift_iff.mp hd').2 d hd .self
  cases hroots : roots with
  | nil =>
    -- no document is left, and the open sink is handed out
    have hframes : w.frames = [] := by
      rw [← List.length_eq_zero_iff, hc.stack.length_eq, hroots]
      rfl
    obtain ⟨w₁, h₁, hends⟩ := round_ok hr
    rcases hc.rotate_ok h₁ with ⟨rfl, -⟩ | ⟨n, r, f, more, hf, -⟩
    · rcases hends with ⟨-, hends⟩ | ⟨f, more, hf, -⟩
      · rcases finish_ok hends with ⟨-, -, rfl⟩ | ⟨k, -, -, rfl⟩
        · exact hm
        · rw [keep_rest]
          exact ⟨hm.live, hm.walked, hm.secondary⟩
      · rw [hframes] at hf
        cases hf
    · rw [hframes] at hf
      cases hf
  | cons root rs =>
    subst hroots
    have houtside := hc.outside_round (fun _ d hd => hout d (.inr hd)) (fun n hn => h.atWriter hc hn) hP
      (hout root (.inl List.mem_cons_self)) hr
    obtain ⟨news, hc', hnews⟩ := houtside.walked
    refine hc'.adrift_iff.mpr ⟨houtside.closed.live m hm, fun d hd hu => ?_⟩
    have hd' : Adrift w d := houtside.closed.of_under hu hm
    rcases hd with hd | hd
    · rcases List.mem_append.mp hd with hd | hd
      · exact hnews d hd hd'
      · exact hout d (.inl (List.mem_cons_of_mem _ hd)) hd'
    · rw [houtside.documents] at hd
      exact hout d (.inr hd) hd'

/-- So it does for the rest of the walk. -/
theorem Adrift.later (hm : Adrift w m) (h : Reached o s w)
    (hlater : ReflTransGen (fun w w' => ∃ progress, Walk.round o w = .ok progress w') w w') : Adrift w' m := by
  suffices Reached o s w' ∧ Adrift w' m from this.2
  induction hlater with
  | refl => exact ⟨h, hm⟩
  | tail _ hr ih =>
    obtain ⟨progress, hr⟩ := hr
    obtain ⟨hreached, hm⟩ := ih
    exact ⟨.round hreached hr, hm.round hreached hr⟩

end Stencil.Walk
