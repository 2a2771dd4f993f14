/-
  A loop that is asked again and again.

  A call of `next` begins a run or ends the loop.  Between two calls something else is at work, and says nothing to
  the loop; which changes it may make is a relation of its own (`Calls`).

  A run that begins does the same whether the loop has a parent or not (`Begun`), but only a loop that has one can
  put a copy behind itself.
-/
import Stencil.Proofs.Loop

set_option autoImplicit false

namespace Stencil.Loop

variable {t : Tree} {anchor n : NodeId} {key : String} {combined : Combined} {l : Loop}

/-! ## What a node declares -/

theorem toOption_bind {α β : Type} (x : Except Error α) (g : α → Except Error β) :
    (x >>= g).toOption = x.toOption.bind fun b => (g b).toOption := by
  cases x <;> rfl

section

variable {t' : Tree} {m : NodeId} (hattr : ∀ name, t'.attr? m name = t.attr? n name)

include hattr

theorem flag?_alike (name : String) : (flag? t' m name).toOption = (flag? t n name).toOption := by
  unfold flag?
  rw [hattr]
  split
  · rfl
  · dsimp only
    split
    · rfl
    · split <;> rfl

theorem max?_alike (h : (t.attr? n "max").isSome ∨ t.attr? n "xmax" = none) :
    (max? t' m).toOption = (max? t n).toOption := by
  unfold max?
  rw [hattr, hattr]
  cases hm : t.attr? n "max" with
  | some text =>
    dsimp only
    rw [toOption_bind, toOption_bind]
    have hread : (readMax t' m text).toOption = (readMax t n text).toOption := by
      unfold readMax
      split
      · rfl
      · split <;> rfl
    rw [hread]
  | none =>
    rw [hm] at h
    rw [h.resolve_left Bool.false_ne_true]

theorem exists_strategyOf {strategy : Strategy} (h : strategyOf t n combined = .ok strategy) (combined' : Combined) :
    ∃ strategy', strategyOf t' m combined' = .ok strategy' ∧ strategy'.isCounted = strategy.isCounted := by
  unfold strategyOf at h ⊢
  rw [hattr]
  split at h
  · cases h
    exact ⟨_, rfl, rfl⟩
  · cases h
    exact ⟨_, rfl, rfl⟩
  · cases h
    exact ⟨_, rfl, rfl⟩
  · cases h
    exact ⟨_, rfl, rfl⟩
  · cases h

end

/-- A node declares a loop if its attributes can be read, and say what ends the loop. -/
theorem declared_of_attrs {strategy : Strategy} {fetch unrolling : Option Bool} {max : Option Nat}
    (hs : strategyOf t anchor combined = .ok strategy) (hf : flag? t anchor "fetch" = .ok fetch)
    (hu : flag? t anchor "unrolling" = .ok unrolling) (hm : max? t anchor = .ok max)
    (hends : (strategy.isCounted && !fetch.getD !strategy.isCounted && max.isNone) = false) :
    declared t anchor key combined = .ok ⟨strategy, 0, max, fetch.getD !strategy.isCounted, unrolling.getD false, key,
      t.keyPath key anchor, anchor⟩ := by
  unfold declared
  simp only [hs, hf, hu, hm, bind, Except.bind, hends, Bool.false_eq_true, if_false]
  rfl

/-- A node with the attributes of one that declares a loop declares one, unless a query says how often it runs. -/
theorem exists_declared {t' : Tree} {m : NodeId} (hattr : ∀ name, t'.attr? m name = t.attr? n name)
    (h : declared t n key combined = .ok l) (hmax : (t.attr? n "max").isSome ∨ t.attr? n "xmax" = none)
    (key' : String) (combined' : Combined) : ∃ l', declared t' m key' combined' = .ok l' := by
  have hd := declared_eq_ok h
  have hok : ∀ {α : Type} {x y : Except Error α} {a : α}, x.toOption = y.toOption → y = .ok a → x = .ok a := by
    intro α x y a hxy hy
    rw [hy] at hxy
    cases x with
    | ok b => exact congrArg Except.ok (Option.some.inj hxy)
    | error e => cases hxy
  obtain ⟨strategy, hs, hkind⟩ := exists_strategyOf hattr hd.strategy combined'
  obtain ⟨fetch, hf, hfetch⟩ := hd.fetch
  obtain ⟨unrolling, hu, -⟩ := hd.unrolling
  refine ⟨_, declared_of_attrs hs (hok (flag?_alike hattr _) hf) (hok (flag?_alike hattr _) hu)
    (hok (max?_alike hattr hmax) hd.max) ?_⟩
  rw [hkind, ← hfetch]
  exact hd.bounded

/-! ## The tree of a loop that has been entered -/

theorem enter_of_declared (h : declared t anchor key combined = .ok l) :
    enter anchor key combined t = .ok l ((dropCopies t anchor).setSeq anchor 0) := by
  rw [enter, Action.get_bind]
  exact (Action.bind_of_ok (Action.ofExcept_eq_ok.mpr ⟨h, rfl⟩)).trans rfl

/-- Nothing stands behind a loop without a parent. -/
theorem dropCopies_of_root (h : t.parent? anchor = none) : dropCopies t anchor = t := by
  have hf : t.followingSiblings anchor = [] := by
    unfold Tree.followingSiblings Tree.position?
    rw [h]
  have hc : copies t anchor = [] := by
    unfold copies
    rw [hf]
    split <;> rfl
  unfold dropCopies
  rw [hc]
  rfl

/-- What entering a loop leaves as it is around the node of the loop. -/
structure Settled (t : Tree) (anchor : NodeId) (t' : Tree) : Prop where
  wellFormed : t'.WellFormed
  parent? : t'.parent? anchor = t.parent? anchor
  children : t'.children anchor = t.children anchor

theorem settled (h : t.WellFormed) : Settled t anchor ((dropCopies t anchor).setSeq anchor 0) := by
  cases hp : t.parent? anchor with
  | none =>
    rw [dropCopies_of_root hp]
    exact ⟨h.modifyComputed _ _, Tree.parent?_modifyComputed _, Tree.children_modifyComputed _⟩
  | some p =>
    have he := entered h hp
    refine ⟨he.wellFormed, ?_, ?_⟩
    · unfold Tree.parent?
      rw [he.self]
    · unfold Tree.children
      rw [he.self]

namespace Turn

variable {s s' : Turn} {between : Turn → Turn → Prop} {runs : List Turn}

/-! ## Calls -/

/-- The loop is asked several times, and goes on each time; `runs` are the states in which its runs begin.  From there
    to the next call something happens that `between` says.  The last state is the one of the next call. -/
inductive Calls (between : Turn → Turn → Prop) (s : Turn) : List Turn → Turn → Prop
  | none : Calls between s [] s
  | run {runs : List Turn} {s₁ s₂ s₃ : Turn} (before : Calls between s runs s₁) (begins : next s₁ = .ok true s₂)
      (rest : between s₂ s₃) : Calls between s (runs ++ [s₂]) s₃

/-! ## A run that begins -/

/-- What a run that begins does to the state, wherever the loop stands. -/
structure Begun (s s' : Turn) : Prop where
  loop : s'.loop = { s.loop with count := s.loop.count + 1, anchor := s'.loop.anchor }
  feed : s'.feed = s.feed
  begins : ∃ first, s'.scan = ⟨s.loop.bodyKey, first⟩ :: s.scan ∧ s'.tree.firstChild? s'.loop.anchor = some first
  wellFormed : s'.tree.WellFormed
  parent? : s'.tree.parent? s'.loop.anchor = s.tree.parent? s.loop.anchor
  nextSibling? : s'.tree.nextSibling? s'.loop.anchor = s.tree.nextSibling? s.loop.anchor

theorem Begun.body (h : Begun s s') : s'.tree.children s'.loop.anchor ≠ [] := by
  obtain ⟨first, -, hf⟩ := h.begins
  intro he
  rw [Tree.firstChild?, he] at hf
  cases hf

/-- What stood behind the loop stands behind the node of the new run. -/
theorem nextSibling?_of_advanced {t t' : Tree} {p a a' : NodeId} (h : Advanced t p a a' t') (hwf : t.WellFormed)
    (hp : t.parent? a = some p) : t'.nextSibling? a' = t.nextSibling? a := by
  rcases h.siblings with ⟨rfl, hc, -⟩ | ⟨before, after, hc, hc'⟩
  · obtain ⟨before, after, hs⟩ := hwf.exists_split hp
    rw [h.wellFormed.nextSibling?_of_split (hc.trans hs), hwf.nextSibling?_of_split hs]
  · rw [hwf.nextSibling?_of_split hc,
      h.wellFormed.nextSibling?_of_split (x := before ++ [a]) (by rw [hc', List.append_assoc]; rfl)]

theorem Runs.begun {first : NodeId} (hwf : s.tree.WellFormed) (hf : s.tree.firstChild? s.loop.anchor = some first)
    (hcopy : s.loop.unrolling = true → 0 < s.loop.count → ∃ p, s.tree.parent? s.loop.anchor = some p)
    (h : Runs s.counted first s') : Begun s s' := by
  have hrest := rest_of_runs h
  cases hp : s.tree.parent? s.loop.anchor with
  | some p =>
    have hc := h.continues hwf hp hf
    exact ⟨hrest.2, hrest.1, hc.begins, hc.advanced.wellFormed, hc.advanced.parent.trans hp.symm,
      nextSibling?_of_advanced hc.advanced hwf hp⟩
  | none =>
    -- without a parent the run is on the node of the loop itself
    cases h with
    | first => exact ⟨rfl, rfl, ⟨first, rfl, hf⟩, hwf, rfl, rfl⟩
    | @again hcount r hr =>
      have hno : ¬ s.counted.loop.unrolling = true := fun hun => by
        obtain ⟨p, hp'⟩ := hcopy hun (Nat.lt_of_succ_lt_succ hcount)
        rw [hp] at hp'
        cases hp'
      rw [if_neg hno] at hr
      subst hr
      have hchild : (s.tree.setSeq s.loop.anchor s.loop.count).firstChild? s.loop.anchor = some first := by
        unfold Tree.firstChild? Tree.setSeq
        rw [Tree.children_modifyComputed]
        exact hf
      refine ⟨rfl, rfl, ⟨first, ?_, hchild⟩, ?_, Tree.parent?_modifyComputed _, ?_⟩
      · show (⟨_, Option.getD ((s.tree.setSeq s.loop.anchor s.loop.count).firstChild? s.loop.anchor) _⟩ : Position) :: _ = _
        rw [hchild]
        rfl
      · exact hwf.modifyComputed s.loop.anchor fun c => { c with seq := some s.loop.count }
      · show (s.tree.setSeq s.loop.anchor s.loop.count).nextSibling? _ = _
        unfold Tree.nextSibling? Tree.position? Tree.setSeq
        simp only [Tree.parent?_modifyComputed, Tree.children_modifyComputed]
        rfl

/-- Starting a run that the maximum allows begins it. -/
theorem exists_begun (hwf : s.tree.WellFormed) (hbody : s.tree.children s.loop.anchor ≠ [])
    (hcopy : s.loop.unrolling = true → 0 < s.loop.count → ∃ p, s.tree.parent? s.loop.anchor = some p)
    (hmax : s.loop.max.any (· < s.loop.count + 1) = false) : ∃ s', start s = .ok true s' ∧ Begun s s' := by
  obtain ⟨more, s', hs'⟩ := exists_start hwf hcopy
  rcases start_ok hs' with ⟨-, -, hno⟩ | ⟨rfl, -, first, hf, hr⟩
  · rw [Tree.firstChild?, List.head?_eq_none_iff, hmax] at hno
    exact absurd hno (not_or.mpr ⟨hbody, Bool.false_ne_true⟩)
  · exact ⟨s', hs', hr.begun hwf hf hcopy⟩

/-- A call that begins a run changes nothing of the loop but where it is and how often it has run. -/
theorem loop_of_next (h : next s = .ok true s') : s'.loop = { s.loop with
    strategy := s'.loop.strategy, count := s.loop.count + 1, anchor := s'.loop.anchor } := by
  obtain ⟨moved, s₁, h₁, ⟨hno, -⟩ | ⟨-, -, -, first, -, hr⟩⟩ := next_cases h
  · cases hno
  · rw [(rest_of_runs hr).2, (moved_move h₁).loop]

/-- The run is on a new node if the loop unrolls and has run before, and on the same node otherwise. -/
theorem anchor_of_next {p : NodeId} (hwf : s.tree.WellFormed) (hp : s.tree.parent? s.loop.anchor = some p)
    (h : next s = .ok true s') :
    if s.loop.unrolling = true ∧ 0 < s.loop.count then ¬ s.tree.Live s'.loop.anchor
    else s'.loop.anchor = s.loop.anchor := by
  obtain ⟨moved, s₁, h₁, ⟨hno, -⟩ | ⟨-, -, -, first, -, hr⟩⟩ := next_cases h
  · cases hno
  have hm := moved_move h₁
  have hcount : s₁.counted.loop.count = s.loop.count + 1 := by
    show s₁.loop.count + 1 = _
    rw [hm.loop]
  have hanchor : s₁.loop.anchor = s.loop.anchor := by rw [hm.loop]
  have hunrolling : s₁.counted.loop.unrolling = s.loop.unrolling := by
    show s₁.loop.unrolling = _
    rw [hm.loop]
  cases hr with
  | first hone =>
    rw [if_neg fun hgo => by omega]
    exact hanchor
  | @again htwo r hr =>
    rw [hunrolling] at hr
    split at hr
    · rename_i hun
      rw [if_pos ⟨hun, by omega⟩]
      obtain ⟨before, after, hs⟩ := hwf.exists_split hp
      obtain ⟨t, hg, -⟩ := (unrolled (s := s₁.counted) (by rw [← hm.tree] at hwf; exact hwf)
        (by rw [← hm.tree, ← hanchor] at hs; exact hs) hr).copy
      rw [← hm.tree]
      exact hg.fresh
    · rename_i hno
      rw [if_neg fun hgo => hno hgo.1]
      subst hr
      exact hanchor

/-- Without a call nothing has happened. -/
theorem Calls.eq_of_nil (h : Calls between s [] s') : s' = s := by
  generalize hr : ([] : List Turn) = rs at h
  cases h with
  | none => rfl
  | run => exact absurd hr.symm (List.concat_ne_nil _ _)

/-- Behind some calls the loop is the same but for where it is and how often it has run. -/
theorem Calls.loop (h : Calls between s runs s') (hbetween : ∀ x y, between x y → y.loop = x.loop) :
    s'.loop = { s.loop with
      strategy := s'.loop.strategy, count := s.loop.count + runs.length, anchor := s'.loop.anchor } := by
  induction h with
  | none => rfl
  | run _ begins rest ih =>
    rw [hbetween _ _ rest, loop_of_next begins, ih, List.length_append]
    rfl

end Turn

end Stencil.Loop
