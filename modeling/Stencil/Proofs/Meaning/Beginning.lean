/-
  A template when its walk begins.

  Of a template without other documents in it nothing has to be resolved, so the walk begins
  (`exists_start`).  Its loops have got numbers, each one its own (`Numbered`), and its nodes stand for its
  elements, each `writer` for an element that is nothing (`mirrors_of_holds`).
-/
import Stencil.Proofs.Meaning.Fields
import Stencil.Proofs.Walk.Intact
import Stencil.Xml.Document

set_option autoImplicit false

namespace Stencil

/-- Nothing is known of an element, or of those below it, beyond what they declare. -/
def Element.Bare (e : Element) : Prop := ∀ x ∈ e.all, x.computed = .none

instance (e : Element) : Decidable e.Bare := inferInstanceAs (Decidable (∀ x ∈ e.all, x.computed = .none))

theorem Element.mem_allOf {es : List Element} {x : Element} : x ∈ allOf es ↔ ∃ e ∈ es, x ∈ e.all := by
  induction es with
  | nil => simp [allOf]
  | cons e es ih => simp [allOf, ih]

theorem Element.bare_mk {n x : String} {a : Entries String} {c : Computed} {cs : List Element} :
    (Element.mk n a x c cs).Bare ↔ c = .none ∧ ∀ e ∈ cs, e.Bare := by
  unfold Bare
  simp only [all, List.forall_mem_cons, mem_allOf]
  refine and_congr_right fun _ => ⟨fun h e he x hx => h x ⟨e, he, hx⟩, ?_⟩
  rintro h x ⟨e, he, hx⟩
  exact h e he x hx

/-! ## What is read -/

namespace Xml.Document

/-- Nothing is known of what has been read so far beyond what it declares. -/
structure Reading.Bare (r : Reading) : Prop where
  opened : ∀ o ∈ r.opened, ∀ e ∈ o.children, e.Bare
  root : ∀ e, r.root = some e → e.Bare

theorem bare_close {o : Open} (h : ∀ e ∈ o.children, e.Bare) : o.close.Bare :=
  Element.bare_mk.mpr ⟨rfl, fun e he => h e (List.mem_reverse.mp he)⟩

theorem Reading.Bare.add {r : Reading} {e : Element} (h : r.Bare) (he : e.Bare) : (r.add e).Bare := by
  obtain ⟨opened, root⟩ := r
  cases opened with
  | nil => exact ⟨h.opened, fun e' he' => Option.some.inj he' ▸ he⟩
  | cons o os =>
    refine ⟨List.forall_mem_cons.mpr ⟨?_, fun o' ho' => h.opened o' (List.mem_cons_of_mem _ ho')⟩, h.root⟩
    exact List.forall_mem_cons.mpr ⟨he, h.opened o List.mem_cons_self⟩

theorem Reading.Bare.addText {r : Reading} (h : r.Bare) (s : String) : (r.addText s).Bare := by
  obtain ⟨opened, root⟩ := r
  cases opened with
  | nil => exact h
  | cons o os =>
    exact ⟨List.forall_mem_cons.mpr ⟨h.opened o List.mem_cons_self,
      fun o' ho' => h.opened o' (List.mem_cons_of_mem _ ho')⟩, h.root⟩

theorem children_openTag {content : List Char} {o : Open} (h : openTag content = .ok o) : o.children = [] := by
  unfold openTag at h
  split at h
  · cases h
  · rename_i attrs _
    cases hd : declaredAttributes attrs with
    | error e =>
      rw [hd] at h
      cases h
    | ok attrs =>
      rw [hd] at h
      cases h
      rfl

theorem Reading.Bare.step {r r' : Reading} {t : Token} (h : r.Bare) (hs : r.step t = .ok r') : r'.Bare := by
  cases t with
  | fault => cases hs
  | doctype =>
    cases hs
    exact h
  | cdata cs =>
    cases hs
    exact h.addText _
  | text raw =>
    unfold Reading.step at hs
    dsimp only at hs
    split at hs
    · cases hs
      exact h
    · split at hs
      · cases hs
      · cases hs
        exact h.addText _
  | tag content =>
    unfold Reading.step at hs
    dsimp only at hs
    split at hs
    · -- a closing tag
      split at hs
      · cases hs
      · rename_i o os hopened
        split at hs
        · cases hs
          have ho := h.opened
          rw [hopened] at ho
          exact Reading.Bare.add ⟨fun o' ho' => ho o' (List.mem_cons_of_mem _ ho'), h.root⟩
            (bare_close (ho o List.mem_cons_self))
        · cases hs
    · split at hs
      · cases hs
      · split at hs
        · cases hs
        · rename_i o ho
          have hnone : ∀ e ∈ o.children, e.Bare := by
            rw [children_openTag ho]
            exact fun _ he => nomatch he
          split at hs
          · cases hs
            exact h.add (bare_close hnone)
          · cases hs
            exact ⟨List.forall_mem_cons.mpr ⟨hnone, h.opened⟩, h.root⟩

theorem Reading.Bare.run {r : Reading} {ts : List Token} {e : Element} (h : r.Bare) (hr : r.run ts = .ok e) :
    e.Bare := by
  induction ts generalizing r with
  | nil =>
    unfold Reading.run Reading.finish at hr
    split at hr
    · cases hr
    · cases hr
    · rename_i hroot
      cases hr
      exact h.root e hroot
  | cons t ts ih =>
    unfold Reading.run at hr
    cases hs : r.step t with
    | error f =>
      rw [hs] at hr
      cases hr
    | ok r' =>
      rw [hs] at hr
      exact ih (h.step hs) hr

/-- Nothing is known of a document that has been read beyond what it declares. -/
theorem bare_of_parse {text : String} {e : Element} (h : parse text = .ok e) : e.Bare := by
  unfold parse at h
  split at h
  · rename_i hread
    cases h
    refine Reading.Bare.run ⟨fun o ho => ?_, fun e he => ?_⟩ hread
    · cases ho
    · cases he
  · cases h

end Xml.Document

namespace Meaning

open Stencil.Tree (Holds HoldsAll Under)
open Stencil.Walk (numberLoops name_of_tag)

variable {outputs : Bool} {t t' : Tree} {root n m x : NodeId} {ns : List NodeId} {e : Element} {es : List Element}
  {k : Nat}

/-! ## Templates without other documents -/

mutual

/-- Whether no element reads another document, fields are simple and maxima are written out, from an element on. -/
def selfContained : Element → Bool
  | .mk n a x c cs =>
    match Tag.ofName? n with
    | some .item => simpleField (.mk n a x c cs)
    | some .loop => literalMax (.mk n a x c cs) && selfContainedAll cs
    | some .document => false
    | _ => selfContainedAll cs

/-- Whether no element of a list reads another document, and so on. -/
def selfContainedAll : List Element → Bool
  | [] => true
  | e :: es => selfContained e && selfContainedAll es

end

/-- Whether an element is a template without other documents. -/
def selfContainedTemplate (e : Element) : Bool :=
  !(e.name == "import" && e.attr? "type" == some "xml") && selfContainedAll e.children

mutual

/-- An element in which each `writer` is replaced by a node that stands for nothing. -/
def mute : Element → Element
  | .mk n a x c cs =>
    match Tag.ofName? n with
    | some .writer => .mk "nop" [] "" .none []
    | _ => .mk n a x c (muteAll cs)

/-- The elements of a list, in which each `writer` is replaced. -/
def muteAll : List Element → List Element
  | [] => []
  | e :: es => mute e :: muteAll es

end

/-- A template without `writer`s: each one in it is replaced by a node that stands for nothing. -/
def muteTemplate (e : Element) : Element := .mk e.name e.attrs e.text e.computed (muteAll e.children)

theorem muteAll_eq_nil_iff : muteAll es = [] ↔ es = [] := by
  cases es <;> simp [muteAll]

theorem selfContainedAll_iff : selfContainedAll es = true ↔ ∀ e ∈ es, selfContained e = true := by
  induction es with
  | nil => simp [selfContainedAll]
  | cons e es ih => simp [selfContainedAll, ih]

/-- What a simple field declares has nothing below it, and is no `writer`. -/
theorem leaf_of_simple (h : simpleField e = true) {d : Element} (hd : d ∈ e.children) :
    d.name = "default-value" ∧ d.children = [] := by
  rcases (simple_of_simpleField h).children with hnone | ⟨d', hone, hname, hleaf, -⟩
  · rw [hnone] at hd
    cases hd
  · rw [hone, List.mem_singleton] at hd
    rw [hd]
    exact ⟨hname, hleaf⟩

theorem selfContained_of_mem (h : selfContained e = true) {c : Element} (hc : c ∈ e.children) :
    selfContained c = true := by
  obtain ⟨n, a, x, k, cs⟩ := e
  rw [selfContained] at h
  split at h
  · obtain ⟨hname, hleaf⟩ := leaf_of_simple h hc
    obtain ⟨n', a', x', k', cs'⟩ := c
    cases hname
    cases hleaf
    rfl
  · exact selfContainedAll_iff.mp (Bool.and_eq_true_iff.mp h).2 c hc
  · cases h
  · exact selfContainedAll_iff.mp h c hc

/-- No element of a template without other documents reads one. -/
theorem name_ne_import (h : selfContained e = true) : e.name ≠ "import" := by
  obtain ⟨n, a, x, k, cs⟩ := e
  rintro rfl
  cases h

theorem simpleField_of_selfContained (h : selfContained e = true) (hname : e.name = "item") :
    simpleField e = true := by
  obtain ⟨n, a, x, k, cs⟩ := e
  cases hname
  exact h

theorem muteAll_of_leaves (h : ∀ d ∈ es, d.name = "default-value" ∧ d.children = []) : muteAll es = es := by
  induction es with
  | nil => rfl
  | cons d es ih =>
    obtain ⟨hname, hleaf⟩ := h d List.mem_cons_self
    obtain ⟨n, a, x, k, cs⟩ := d
    cases hname
    cases hleaf
    rw [muteAll, ih fun d hd => h d (List.mem_cons_of_mem _ hd)]
    rfl

mutual

/-- An element without `writer`s in it reads no other document if the element with them does not, and there is nothing
    to replace in it. -/
theorem selfContained_mute : ∀ {e : Element}, selfContained e = true →
    selfContained (mute e) = true ∧ mute (mute e) = mute e
  | .mk n a x c cs, h => by
    cases htag : Tag.ofName? n with
    | none =>
      simp only [selfContained, htag] at h
      obtain ⟨hcs, hmute⟩ := selfContainedAll_mute h
      simp only [mute, htag, selfContained]
      exact ⟨hcs, by rw [hmute]⟩
    | some tag =>
      cases tag with
      | item =>
        have hs : simpleField (.mk n a x c cs) = true := by simpa only [selfContained, htag] using h
        have hmute : muteAll cs = cs := muteAll_of_leaves fun d hd => leaf_of_simple hs hd
        simp only [mute, htag, selfContained, hmute]
        exact ⟨hs, trivial⟩
      | items =>
        simp only [selfContained, htag] at h
        obtain ⟨hcs, hmute⟩ := selfContainedAll_mute h
        simp only [mute, htag, selfContained]
        exact ⟨hcs, by rw [hmute]⟩
      | loop =>
        simp only [selfContained, htag, Bool.and_eq_true] at h
        obtain ⟨hcs, hmute⟩ := selfContainedAll_mute h.2
        simp only [mute, htag, selfContained]
        exact ⟨Bool.and_eq_true_iff.mpr ⟨h.1, hcs⟩, by rw [hmute]⟩
      | document =>
        simp only [selfContained, htag] at h
        cases h
      | writer =>
        simp only [mute, htag]
        exact ⟨rfl, rfl⟩
      | nop =>
        simp only [selfContained, htag] at h
        obtain ⟨hcs, hmute⟩ := selfContainedAll_mute h
        simp only [mute, htag, selfContained]
        exact ⟨hcs, by rw [hmute]⟩

theorem selfContainedAll_mute : ∀ {es : List Element}, selfContainedAll es = true →
    selfContainedAll (muteAll es) = true ∧ muteAll (muteAll es) = muteAll es
  | [], _ => ⟨rfl, rfl⟩
  | e :: es, h => by
    rw [selfContainedAll, Bool.and_eq_true] at h
    obtain ⟨he, hmute⟩ := selfContained_mute h.1
    obtain ⟨hes, hmutes⟩ := selfContainedAll_mute h.2
    rw [muteAll, muteAll, selfContainedAll, Bool.and_eq_true]
    exact ⟨⟨he, hes⟩, by rw [hmute, hmutes]⟩

end

mutual

/-- Of an element without `writer`s in it, nothing is known if nothing is known of the one with them. -/
theorem bare_mute : ∀ {e : Element}, e.Bare → (mute e).Bare
  | .mk n a x c cs, h => by
    rw [Element.bare_mk] at h
    unfold mute
    split
    · exact Element.bare_mk.mpr ⟨rfl, fun d hd => absurd hd List.not_mem_nil⟩
    · exact Element.bare_mk.mpr ⟨h.1, bare_muteAll h.2⟩

theorem bare_muteAll : ∀ {es : List Element}, (∀ e ∈ es, e.Bare) → ∀ e ∈ muteAll es, e.Bare
  | [], _, _, he => absurd he List.not_mem_nil
  | _ :: _, h, _, he => by
    rw [muteAll] at he
    rcases List.mem_cons.mp he with rfl | he
    · exact bare_mute (h _ List.mem_cons_self)
    · exact bare_muteAll (fun d hd => h d (List.mem_cons_of_mem _ hd)) _ he

end

/-- The maximum of a loop with limits is written out. -/
theorem literalMax_of_limits {l : Limits} (h : limits? e = some l) : literalMax e = true := by
  have hmax : max? e ≠ none := by
    intro hnone
    unfold limits? at h
    rw [hnone] at h
    split at h
    · rename_i heq _ _
      cases heq
    · cases h
  unfold max? at hmax
  unfold literalMax
  split at hmax
  · rename_i hm
    rw [hm]
    rfl
  · exact absurd rfl hmax
  · rename_i hm hx
    rw [hm, hx]
    rfl

mutual

/-- A plain element reads no other document, and has no `writer` in it. -/
theorem selfContained_of_plain : ∀ {e : Element}, plain e = true → selfContained e = true ∧ mute e = e
  | .mk n a x c cs, h => by
    unfold plain at h
    unfold selfContained mute
    cases htag : Tag.ofName? n with
    | none =>
      simp only [htag] at h
      cases h
    | some tag =>
      simp only [htag] at h
      cases tag with
      | item =>
        rw [Bool.and_eq_true] at h
        have hleaves : ∀ d ∈ cs, d.name = "default-value" ∧ d.children = [] := fun d hd => leaf_of_simple h.1 hd
        exact ⟨h.1, by rw [muteAll_of_leaves hleaves]⟩
      | items =>
        obtain ⟨hcs, hmute⟩ := selfContainedAll_of_plain h
        exact ⟨hcs, by rw [hmute]⟩
      | loop =>
        rw [Bool.and_eq_true] at h
        obtain ⟨hcs, hmute⟩ := selfContainedAll_of_plain h.2
        obtain ⟨l, hl⟩ := Option.isSome_iff_exists.mp h.1
        exact ⟨Bool.and_eq_true_iff.mpr ⟨literalMax_of_limits hl, hcs⟩, by rw [hmute]⟩
      | document => cases h
      | writer => cases h
      | nop =>
        obtain ⟨hcs, hmute⟩ := selfContainedAll_of_plain h
        exact ⟨hcs, by rw [hmute]⟩

theorem selfContainedAll_of_plain : ∀ {es : List Element}, plainAll es = true →
    selfContainedAll es = true ∧ muteAll es = es
  | [], _ => ⟨rfl, rfl⟩
  | e :: es, h => by
    rw [plainAll, Bool.and_eq_true] at h
    obtain ⟨he, hmute⟩ := selfContained_of_plain h.1
    obtain ⟨hes, hmutes⟩ := selfContainedAll_of_plain h.2
    exact ⟨Bool.and_eq_true_iff.mpr ⟨he, hes⟩, by rw [muteAll, hmute, hmutes]⟩

end

/-! ## Numbers -/

/-- The loops among some nodes have got numbers from `k` on, each one its own. -/
structure Numbered (k : Nat) (t : Tree) (ns : List NodeId) (t' : Tree) : Prop where
  node : ∀ x, t'.node x
    = { t.node x with computed := { t.computed x with repeatId := (t'.computed x).repeatId } }
  other : ∀ x ∉ ns, t'.node x = t.node x
  number : ∀ x ∈ ns, t.name x = "repeat" → ∃ i, k ≤ i ∧ (t'.computed x).repeatId = some i
  own : ∀ x ∈ ns, ∀ y ∈ ns, t.name x = "repeat" → t.name y = "repeat" →
    (t'.computed x).repeatId = (t'.computed y).repeatId → x = y

/-- The loop `n` gets the number `k`, and those behind it get greater ones. -/
theorem Numbered.cons {n : NodeId} {t₁ : Tree} (hn : n ∉ ns)
    (hself : t₁.node n = { t.node n with computed := { t.computed n with repeatId := some k } })
    (hne : ∀ x, n ≠ x → t₁.node x = t.node x) (h : Numbered (k + 1) t₁ ns t') : Numbered k t (n :: ns) t' := by
  have hout : ∀ x ∈ ns, n ≠ x := fun x hx heq => hn (heq ▸ hx)
  have hname : ∀ x ∈ ns, t₁.name x = t.name x := fun x hx => congrArg Node.name (hne x (hout x hx))
  have hid : (t'.computed n).repeatId = some k := by
    unfold Tree.computed
    rw [h.other n hn, hself]
  have hgreater : ∀ x ∈ ns, t.name x = "repeat" → (t'.computed x).repeatId ≠ some k := by
    intro x hx hx'
    obtain ⟨i, hi, hxi⟩ := h.number x hx ((hname x hx).trans hx')
    rw [hxi]
    intro heq
    cases heq
    omega
  refine ⟨fun x => ?_, fun x hx => ?_, fun x hx hx' => ?_, fun x hx y hy hx' hy' heq => ?_⟩
  · by_cases hxn : n = x
    · subst hxn
      rw [hid, h.other n hn, hself]
    · rw [h.node x]
      unfold Tree.computed
      rw [hne x hxn]
  · rw [h.other x fun hm => hx (List.mem_cons_of_mem _ hm)]
    exact hne x fun heq => hx (heq ▸ List.mem_cons_self)
  · rcases List.mem_cons.mp hx with rfl | hx
    · exact ⟨k, Nat.le_refl k, hid⟩
    · obtain ⟨i, hi, hxi⟩ := h.number x hx ((hname x hx).trans hx')
      exact ⟨i, by omega, hxi⟩
  · rcases List.mem_cons.mp hx with rfl | hxs <;> rcases List.mem_cons.mp hy with rfl | hys
    · rfl
    · rw [hid] at heq
      exact absurd heq.symm (hgreater y hys hy')
    · rw [hid] at heq
      exact absurd heq (hgreater x hxs hx')
    · exact h.own x hxs y hys ((hname x hxs).trans hx') ((hname y hys).trans hy') heq

/-- A node that is not a loop gets no number. -/
theorem Numbered.skip {n : NodeId} (hnot : t.name n ≠ "repeat") (h : Numbered k t ns t') :
    Numbered k t (n :: ns) t' := by
  have htail : ∀ x ∈ n :: ns, t.name x = "repeat" → x ∈ ns := by
    intro x hx hx'
    rcases List.mem_cons.mp hx with rfl | hx
    · exact absurd hx' hnot
    · exact hx
  exact ⟨h.node, fun x hx => h.other x fun hm => hx (List.mem_cons_of_mem _ hm),
    fun x hx hx' => h.number x (htail x hx hx') hx',
    fun x hx y hy hx' hy' => h.own x (htail x hx hx') y (htail y hy hy') hx' hy'⟩

theorem numbered_numberLoops (hns : ns.Nodup) (hl : ∀ x ∈ ns, t.Live x)
    (hnone : ∀ x ∈ ns, (t.computed x).repeatId = none) : Numbered k t ns (numberLoops k t ns).2 := by
  induction ns generalizing t k with
  | nil =>
    exact ⟨fun _ => rfl, fun _ _ => rfl, fun _ hx => absurd hx List.not_mem_nil,
      fun _ hx => absurd hx List.not_mem_nil⟩
  | cons n ns ih =>
    obtain ⟨hn, hns⟩ := List.nodup_cons.mp hns
    have hnone' := fun x hx => hnone x (List.mem_cons_of_mem _ hx)
    have hl' := fun x hx => hl x (List.mem_cons_of_mem _ hx)
    unfold numberLoops
    split
    · have hne : ∀ x, n ≠ x → (t.modifyComputed n fun c => { c with repeatId := some k }).node x = t.node x :=
        fun x hx => Tree.node_modify_of_ne hx
      refine .cons hn ?_ hne (ih hns (fun x hx => (Tree.live_modify t n x _).mpr (hl' x hx)) fun x hx => ?_)
      · unfold Tree.modifyComputed
        rw [Tree.node_modify, if_pos ⟨rfl, (hl n List.mem_cons_self).1⟩]
        rfl
      · unfold Tree.computed
        rw [hne x fun heq => hn (heq ▸ hx)]
        exact hnone' x hx
    · rename_i hloop
      refine .skip (fun hname => ?_) (ih hns hl' hnone')
      rw [hname, hnone n List.mem_cons_self] at hloop
      exact hloop rfl

/-! ## Nodes that stand for elements -/

theorem holds_of_mem : ∀ {ns : List NodeId} {es : List Element}, HoldsAll t ns es → x ∈ ns →
    ∃ e ∈ es, Holds t x e
  | [], _, _, hx => absurd hx List.not_mem_nil
  | n :: ns, [], h, _ => by
    rw [HoldsAll] at h
    exact h.elim
  | n :: ns, e :: es, h, hx => by
    rw [HoldsAll] at h
    rcases List.mem_cons.mp hx with rfl | hx
    · exact ⟨e, List.mem_cons_self, h.1⟩
    · obtain ⟨d, hd, hx⟩ := holds_of_mem h.2 hx
      exact ⟨d, List.mem_cons_of_mem _ hd, hx⟩

/-- What holds for the elements directly below one, and is handed down, holds for those whose copies stand below
    its copy. -/
theorem holds_of_under {P : Element → Prop} (hwf : t.WellFormed) (hP : ∀ d, P d → ∀ c ∈ d.children, P c)
    (h : Holds t n e) (he : ∀ c ∈ e.children, P c) (hu : Under t n x) : x = n ∨ ∃ d, Holds t x d ∧ P d := by
  induction hu with
  | self => exact .inl rfl
  | child hp _ ih =>
    have hc := hwf.mem_children.mpr hp
    rcases ih with rfl | ⟨d, hd, hPd⟩
    · obtain ⟨d, hd, hx⟩ := holds_of_mem h.children hc
      exact .inr ⟨d, hx, he d hd⟩
    · obtain ⟨c, hmem, hx⟩ := holds_of_mem hd.children hc
      exact .inr ⟨c, hx, hP d hPd c hmem⟩

theorem bare_of_mem (h : e.Bare) {c : Element} (hc : c ∈ e.children) : c.Bare := by
  obtain ⟨n, a, x, k, cs⟩ := e
  exact (Element.bare_mk.mp h).2 c hc

theorem computed_of_bare (h : e.Bare) : e.computed = .none := by
  obtain ⟨n, a, x, k, cs⟩ := e
  exact (Element.bare_mk.mp h).1

/-- Of a document of which nothing is known beyond what it declares, no loop has a number. -/
theorem repeatId_of_bare (hwf : t.WellFormed) (h : Holds t n e) (he : e.Bare) (hu : Under t n x) :
    (t.computed x).repeatId = none := by
  have hof : ∀ {d}, Holds t x d → d.Bare → (t.computed x).repeatId = none := by
    intro d hd hbare
    have hc : t.computed x = d.computed := congrArg Node.computed hd.content
    rw [hc, computed_of_bare hbare]
    rfl
  rcases holds_of_under hwf (fun d hd c hc => bare_of_mem hd hc) h (fun c hc => bare_of_mem he hc) hu
    with rfl | ⟨d, hd, hbare⟩
  · exact hof h he
  · exact hof hd hbare

section

variable (hn : Numbered k t ns t')

include hn

theorem Numbered.content (x : NodeId) : t'.name x = t.name x ∧ (t'.node x).attrs = (t.node x).attrs
    ∧ t'.text x = t.text x ∧ t'.children x = t.children x := by
  unfold Tree.name Tree.text Tree.children
  rw [hn.node x]
  exact ⟨rfl, rfl, rfl, rfl⟩

theorem isLeaf_of_holds (h : Holds t x e) (hleaf : e.children = []) : IsLeaf t' x e where
  name := (hn.content x).1.trans (congrArg Node.name h.content)
  attrs := (hn.content x).2.1.trans (congrArg Node.attrs h.content)
  text := (hn.content x).2.2.1.trans (congrArg Node.text h.content)
  children := (hn.content x).2.2.2.trans (by
    have hc := h.children
    rw [hleaf] at hc
    exact hc.eq_nil_iff.mpr rfl)

theorem forall₂_isLeaf_of_holdsAll : ∀ {xs : List NodeId} {es : List Element}, HoldsAll t xs es →
    (∀ e ∈ es, e.children = []) → List.Forall₂ (IsLeaf t') xs es
  | [], [], _, _ => .nil
  | x :: xs, e :: es, h, hes => by
    rw [HoldsAll] at h
    exact .cons (isLeaf_of_holds hn h.1 (hes e List.mem_cons_self))
      (forall₂_isLeaf_of_holdsAll h.2 fun d hd => hes d (List.mem_cons_of_mem _ hd))
  | [], _ :: _, h, _ => by rw [HoldsAll] at h; exact h.elim
  | _ :: _, [], h, _ => by rw [HoldsAll] at h; exact h.elim

/-- Different nodes are no copies of each other. -/
theorem Numbered.not_isCopy {y : NodeId} (hx : x ∈ ns) (hy : y ∈ ns) (hne : x ≠ y) : ¬ IsCopy t' x y := by
  rintro ⟨hxname, hyname, heq⟩
  rw [(hn.content x).1] at hxname
  rw [(hn.content y).1] at hyname
  exact hne (hn.own x hx y hy hxname hyname heq.symm)

mutual

/-- The copy of an element stands for it, once its loops have got numbers.  If the output does not change there is
    no `writer` in it. -/
theorem mirrors_of_holds (hwf : t.WellFormed) : ∀ {e : Element} {x : NodeId}, Holds t x e → selfContained e = true →
    (outputs = true ∨ mute e = e) → (∀ y, Under t x y → y ∈ ns) → Mirrors outputs t' x (mute e)
  | .mk name attrs text c cs, x, h, he, hout, hns => by
    obtain ⟨hname, hattrs, -, hchildren⟩ := hn.content x
    rw [show t.name x = name from congrArg Node.name h.content] at hname
    rw [show (t.node x).attrs = attrs from congrArg Node.attrs h.content] at hattrs
    have hall := fun hcs hout => mirrorsAll_of_holdsAll hwf h.children hcs hout
      (hwf.children_nodup x) fun y hy z hz => hns z (.trans (Tree.under_of_parent (hwf.mem_children.mp hy)) hz)
    rw [← hchildren] at hall
    cases htag : Tag.ofName? name with
    | none =>
      simp only [mute, htag, Mirrors]
      exact ⟨.inl ⟨hname, hattrs⟩, trivial⟩
    | some tag =>
      cases tag with
      | item =>
        have hs := simpleField_of_selfContained he (name_of_tag htag)
        have hleaves : ∀ d ∈ cs, d.name = "default-value" ∧ d.children = [] := fun d hd => leaf_of_simple hs hd
        simp only [mute, htag, Mirrors, muteAll_of_leaves hleaves]
        refine ⟨.inl ⟨hname, hattrs⟩, hs, [], t'.children x, rfl, Nat.zero_le _, fun v hv => absurd hv List.not_mem_nil, ?_⟩
        rw [hchildren]
        exact forall₂_isLeaf_of_holdsAll hn h.children fun d hd => (hleaves d hd).2
      | items =>
        simp only [selfContained, htag] at he
        simp only [mute, htag, Element.mk.injEq, true_and] at hout
        simp only [mute, htag, Mirrors]
        exact ⟨.inl ⟨hname, hattrs⟩, hall he hout⟩
      | loop =>
        simp only [selfContained, htag, Bool.and_eq_true] at he
        simp only [mute, htag, Element.mk.injEq, true_and] at hout
        simp only [mute, htag, Mirrors]
        obtain ⟨i, -, hi⟩ := hn.number x (hns x .self) ((congrArg Node.name h.content).trans (name_of_tag htag))
        exact ⟨.inl ⟨hname, hattrs⟩, he.1, Option.isSome_iff_exists.mpr ⟨i, hi⟩, hall he.2 hout⟩
      | document =>
        simp only [selfContained, htag] at he
        cases he
      | writer =>
        simp only [mute, htag] at hout ⊢
        rw [Mirrors]
        refine ⟨.inr ⟨hout.resolve_right fun heq => ?_, hname.trans (name_of_tag htag), rfl⟩, trivial⟩
        cases heq
        cases htag
      | nop =>
        simp only [mute, htag, Mirrors]
        exact ⟨.inl ⟨hname, hattrs⟩, trivial⟩

theorem mirrorsAll_of_holdsAll (hwf : t.WellFormed) : ∀ {es : List Element} {xs : List NodeId}, HoldsAll t xs es →
    selfContainedAll es = true → (outputs = true ∨ muteAll es = es) → xs.Nodup →
    (∀ x ∈ xs, ∀ y, Under t x y → y ∈ ns) → MirrorsAll outputs t' xs (muteAll es)
  | [], xs, h, _, _, _, _ => by
    rw [muteAll, mirrorsAll_nil]
    exact h.eq_nil_iff.mpr rfl
  | e :: es, [], h, _, _, _, _ => by
    rw [HoldsAll] at h
    exact h.elim
  | e :: es, x :: xs, h, hes, hout, hnodup, hns => by
    rw [HoldsAll] at h
    rw [selfContainedAll, Bool.and_eq_true] at hes
    rw [muteAll, List.cons.injEq, or_and_left] at hout
    obtain ⟨hx, hnodup⟩ := List.nodup_cons.mp hnodup
    have hxs : ∀ y ∈ xs, ∀ z, Under t y z → z ∈ ns := fun y hy => hns y (List.mem_cons_of_mem _ hy)
    refine mirrorsAll_cons.mpr ⟨x, [], xs, rfl, mirrors_of_holds hwf h.1 hes.1 hout.1 (hns x List.mem_cons_self),
      fun m hm => absurd hm List.not_mem_nil, fun m hm => ?_, mirrorsAll_of_holdsAll hwf h.2 hes.2 hout.2 hnodup hxs⟩
    have hmem := List.mem_of_mem_head? hm
    exact hn.not_isCopy (hns x List.mem_cons_self x .self) (hxs m hmem m .self) fun heq => hx (heq ▸ hmem)

end

end

/-! ## The walk begins -/

open Stencil.Walk (Setup begun placedAll IsRoot onDesk pushLevel)

variable {o : Options} {load : Loader}

/-- Of a template without other documents, nothing has to be resolved. -/
theorem statics_eq_nil (hwf : t.WellFormed) (h : Holds t root e) (he : selfContainedTemplate e = true) :
    Import.statics t root = [] := by
  rw [selfContainedTemplate, Bool.and_eq_true, selfContainedAll_iff] at he
  refine List.filter_eq_nil_iff.mpr fun n hn => ?_
  have hu : Under t root n := by
    rcases List.mem_cons.mp hn with rfl | hn
    · exact .self
    · exact (hwf.mem_descendants.mp hn).1
  rcases holds_of_under hwf (fun d hd c => selfContained_of_mem hd) h he.2 hu with rfl | ⟨d, hd, hself⟩
  · have hattr : t.attr? n "type" = e.attr? "type" := congrArg (fun x : Node => x.attrs.get? "type") h.content
    rw [show t.name n = e.name from congrArg Node.name h.content, hattr]
    simpa [Classical.or_iff_not_imp_left] using he.1
  · rw [show t.name n = d.name from congrArg Node.name hd.content]
    simp [name_ne_import hself]

theorem resolve_of_statics {d : Import.Desk} {document : Import.Placed}
    (h : Import.statics d.tree document.root = []) : Import.resolve o load document d = .ok () d := by
  obtain ⟨r, hr⟩ : ∃ r, Import.rounds = r + 1 := ⟨1099511627775, rfl⟩
  have hread : Import.readAll o load (r + 1) [⟨document, []⟩] [] d = .ok [] d := by
    rw [Import.readAll, Action.get_bind]
    dsimp only
    rw [h, Import.readTargets]
    show Import.readAll o load r [] [] d = _
    rw [Import.readAll]
    rfl
  rw [Import.resolve, hr, Action.bind_of_ok hread, Import.spliceAll]
  rfl

theorem holds_begin (s : Setup) : Holds (Walk.begin s).space.tree 0 s.main.layout := by
  have hg := Tree.grafted_ofElement s.main.layout
  cases hp : Walk.placeAll (Tree.ofElement s.main.layout) s.secondary with | mk entries t
  have hk := (placedAll hg.wellFormed hp).keeps
  unfold Walk.begin
  simp only [hp]
  exact hg.holds.congr hg.wellFormed fun n hn => (hk n (hg.wellFormed.live_of_under hg.live_root hn)).2

/-- A document whose imports can be resolved can be gone into. -/
theorem exists_enter {w : Walk} {d : Import.Desk} {x : Walk.Entry}
    (h : Import.resolve o w.loader x.document ⟨w.space.tree, w.library⟩ = .ok () d) :
    ∃ w', Walk.enter o x w = .ok () w' := by
  have hdesk : onDesk (Import.resolve o w.loader x.document) w
      = .ok () { w with space := { w.space with tree := d.tree }, library := d.library } :=
    Action.within_eq_ok.mpr ⟨d, h, rfl⟩
  have hpush : ∀ w : Walk, pushLevel w = .ok () { w with sink := w.sink.map Sink.push, depth := w.depth + 1 } :=
    fun _ => Walk.pushLevel_eq_ok.mpr rfl
  rw [Walk.enter, Action.get_bind, Action.bind_of_ok hdesk, Action.modify_bind, Action.bind_of_ok (hpush _)]
  exact ⟨_, rfl⟩

/-- The walk of a template has begun. -/
structure Begun (outputs : Bool) (s : Setup) (w : Walk) : Prop where
  mirrors : MirrorsAll outputs w.space.tree (w.space.tree.children 0) (muteAll s.main.layout.children)
  name : w.space.tree.name 0 = s.main.layout.name
  frames : w.frames = [⟨s.main.path, .main, true,
    (match w.space.tree.firstChild? 0 with
      | some first => [⟨"", first⟩]
      | none => []), [], none, none⟩]
  main : w.main = s.main.table.map (·.read.2)
  secondary : w.secondary = (Walk.begin s).secondary
  sink : w.sink = s.sink.map Sink.push
  rotation : w.rotation = none
  outputs : w.outputs = ⟨s.store, [], []⟩

/-- The walk of a template without other documents begins. -/
theorem exists_begun {s : Setup} (he : selfContainedTemplate s.main.layout = true)
    (hout : outputs = true ∨ muteAll s.main.layout.children = s.main.layout.children) (hbare : s.main.layout.Bare) :
    ∃ w, Walk.start o ⟨0, s.main.path⟩ (Walk.begin s) = .ok () w ∧ Begun outputs s w := by
  obtain ⟨hwf, hroot, -⟩ := begun s
  have hholds := holds_begin s
  generalize hb : { Walk.begin s with phase := .running, main := s.main.table.map fun t : Table => t.read.2 } = b
  have htree : b.space.tree = (Walk.begin s).space.tree := by rw [← hb]
  have hresolve : Import.resolve o b.loader ⟨0, s.main.path⟩ ⟨b.space.tree, b.library⟩
      = .ok () ⟨b.space.tree, b.library⟩ := by
    refine resolve_of_statics ?_
    rw [htree]
    exact statics_eq_nil hwf hholds he
  obtain ⟨w, hw⟩ := exists_enter (x := ⟨⟨0, s.main.path⟩, .main, true, false⟩) hresolve
  refine ⟨w, ?_, ?_⟩
  · rw [Walk.start, Action.modify_bind]
    exact (congrArg (Walk.enter o _) hb).trans hw
  obtain ⟨d, k, t, hd, ht, rfl⟩ := Walk.enter_ok hw
  rw [hresolve] at hd
  cases hd
  -- the loops below the root have got their numbers
  have hns : ∀ x ∈ (Walk.begin s).space.tree.descendants 0, Under (Walk.begin s).space.tree 0 x :=
    fun x hx => (hwf.mem_descendants.mp hx).1
  have hnum : Numbered b.nextLoop (Walk.begin s).space.tree ((Walk.begin s).space.tree.descendants 0) t := by
    have hn := numbered_numberLoops (k := b.nextLoop) (hwf.nodup_descendants 0)
      (fun x hx => hwf.live_of_under hroot.live (hns x hx)) fun x hx => repeatId_of_bare hwf hholds hbare (hns x hx)
    rw [← htree, ht, htree] at hn
    exact hn
  rw [selfContainedTemplate, Bool.and_eq_true] at he
  have hmirrors : MirrorsAll outputs t (t.children 0) (muteAll s.main.layout.children) := by
    rw [(hnum.content 0).2.2.2]
    refine mirrorsAll_of_holdsAll hnum hwf hholds.children he.2 hout (hwf.children_nodup 0) fun x hx y hy => ?_
    have hx0 := hwf.mem_children.mp hx
    refine hwf.mem_descendants.mpr ⟨(Tree.under_of_parent hx0).trans hy, ?_⟩
    rintro rfl
    exact hwf.not_under_parent hx0 hy
  subst hb
  exact ⟨hmirrors, (hnum.content 0).1.trans (congrArg Node.name hholds.content), rfl, rfl, rfl, rfl, rfl, rfl⟩

end Meaning

end Stencil
