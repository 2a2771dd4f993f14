/-
  What a document is when its static imports are replaced.

  `Inlined o l t origin n e` says it by recursion over the document that `n` stands in, without any
  store: a node that is no static import keeps what it holds, and what stands below it is inlined.  A
  static import becomes a group with the content of the document it names.  That document is inlined by
  itself (in `Tree.ofElement`, where nothing else stands), and then the rules of the import are applied
  to it (`edited`).  `l` are the documents under their paths; paths are resolved from the document that
  names them, and a target is computed in that document as it was read.

  The recursion determines the element (`Inlined.unique`), and it sees the document only, not the slots
  it stands in (`Inlined.alike`).  The rules of an import, as they are applied to a document in the
  store of a run, do what `edited` says (`edited_of_edit`).
-/
import Stencil.Proofs.Import.Rules
import Stencil.Proofs.Query.Alike

set_option autoImplicit false

namespace Stencil

/-- The texts of an element and of all below it, in document order. -/
def Element.stringValue (e : Element) : String := String.join (e.all.map Element.text)

namespace Tree

variable {t : Tree} {n : NodeId}

theorem Holds.attr? {e : Element} (h : Holds t n e) (name : String) : t.attr? n name = e.attr? name := by
  have ha : (t.node n).attrs = e.attrs := show (t.content n).attrs = e.attrs by rw [h.content]; rfl
  rw [Tree.attr?, Element.attr?, ha]

theorem Holds.name {e : Element} (h : Holds t n e) : t.name n = e.name :=
  show (t.content n).name = e.name by rw [h.content]; rfl

mutual

theorem Holds.texts (hwf : WellFormed t) : ∀ {e : Element} {n : NodeId}, Holds t n e →
    (n :: t.descendants n).map t.text = e.all.map Element.text
  | .mk a b c d cs, n, h => by
    rw [Holds] at h
    have ht : t.text n = c := show (t.content n).text = c by rw [h.1]
    rw [hwf.descendants_eq, List.map_cons, ht, Element.all, List.map_cons, HoldsAll.texts hwf h.2]
    rfl

theorem HoldsAll.texts (hwf : WellFormed t) : ∀ {es : List Element} {ns : List NodeId}, HoldsAll t ns es →
    (ns.flatMap fun n => n :: t.descendants n).map t.text = (Element.allOf es).map Element.text
  | [], [], _ => rfl
  | [], _ :: _, h => by rw [HoldsAll] at h; exact h.elim
  | _ :: _, [], h => by rw [HoldsAll] at h; exact h.elim
  | e :: es, n :: ns, h => by
    rw [HoldsAll] at h
    rw [List.flatMap_cons, List.map_append, Holds.texts hwf h.1, HoldsAll.texts hwf h.2, Element.allOf,
      List.map_append]

end

theorem Holds.stringValue {e : Element} (h : Holds t n e) (hwf : WellFormed t) :
    t.stringValue n = e.stringValue := by
  rw [Tree.stringValue, Element.stringValue, ← h.texts hwf, List.map_cons]

end Tree

namespace Library

/-- `l'` has what `l` has, and beside it only what can be read. -/
structure Extends (load : Loader) (l l' : Library) : Prop where
  keeps : ∀ path e, l.find? path = some e → l'.find? path = some e
  read : ∀ path e, l'.find? path = some e →
    l.find? path = some e ∨ ∃ p, FilePath.same p path = true ∧ load p = .ok e

variable {load : Loader} {l l' l₁ l₂ : Library} {path : String} {e : Element}

theorem Extends.refl : Extends load l l := ⟨fun _ _ h => h, fun _ _ h => .inl h⟩

theorem Extends.trans (h : Extends load l l₁) (h' : Extends load l₁ l₂) : Extends load l l₂ where
  keeps := fun path e he => h'.keeps path e (h.keeps path e he)
  read := fun path e he => (h'.read path e he).elim (h.read path e) .inr

/-- A document that is fetched is kept from then on. -/
theorem extends_fetch (h : fetch load path l = .ok e l') : Extends load l l' ∧ l'.find? path = some e := by
  unfold fetch at h
  cases hf : l.find? path with
  | some x =>
    rw [hf] at h
    cases h
    exact ⟨.refl, hf⟩
  | none =>
    rw [hf] at h
    cases hl : load path with
    | error err => rw [hl] at h; cases h
    | ok x =>
      rw [hl] at h
      cases h
      have hfind : ∀ q, Library.find? ⟨l.documents ++ [(path, e)]⟩ q
          = (l.find? q).or (if FilePath.same path q then some e else none) := by
        intro q
        unfold find?
        rw [List.find?_append]
        cases l.documents.find? fun d => FilePath.same d.1 q with
        | some d => rfl
        | none =>
          rw [List.find?_singleton]
          simp only [Option.none_or, Option.map_none]
          split <;> rfl
      refine ⟨⟨fun q x hx => ?_, fun q x hx => ?_⟩, ?_⟩
      · rw [hfind, hx]
        rfl
      · rw [hfind] at hx
        cases hq : l.find? q with
        | some y =>
          rw [hq] at hx
          exact .inl hx
        | none =>
          rw [hq, Option.none_or] at hx
          split at hx
          · rename_i hsame
            cases hx
            exact .inr ⟨path, hsame, hl⟩
          · cases hx
      · rw [hfind, hf, Option.none_or, if_pos]
        rw [FilePath.same, beq_self_eq_true]

end Library

namespace Import

open Stencil.Tree (Under Closed Keeps Grafted Alike Holds HoldsAll)

/-! ## Rules -/

/-- The text that a rule puts in.  `transform` is the document that the import names for it. -/
def ruleText (o : Options) (l : Library) (transform origin : Option String) (rule : Element) :
    Option String :=
  if rule.attr? "type" = some "text" then some rule.stringValue
  else if rule.attr? "type" = some "external" then some (o.external rule.stringValue)
  else do
    let name ← transform
    let e ← l.find? (o.resolve name origin)
    (Query.evaluate (Tree.ofElement e) (.document 0) rule.stringValue).toOption

/-- The documents in which a node holds a text instead. -/
def replaced (text : String) (t : Tree) : Query.NodeRef → Option Tree
  | .element id => some (t.setValue id text)
  | .attr id name => some (t.setAttr id name text)
  | .text id => some (t.setText id text)
  | .document _ => none

/-- What a rule makes of the document with the root 0; only elements named `map` are rules. -/
def ruled (o : Options) (l : Library) (transform origin : Option String) (t : Tree) (rule : Element) :
    Option Tree :=
  if rule.name = "map" then do
    let source ← rule.attr? "from"
    let text ← ruleText o l transform origin rule
    let selected ← (Query.select t (.document 0) source).toOption
    selected.foldlM (replaced text) t
  else some t

/-- What rules make of a document, one after another. -/
def edited (o : Options) (l : Library) (transform origin : Option String) (rules : List Element)
    (e : Element) : Option Element :=
  (rules.foldlM (ruled o l transform origin) (Tree.ofElement e)).map fun t => t.element 0

/-! ## Inlining -/

/-- A static import. -/
def IsStatic (t : Tree) (n : NodeId) : Prop := t.name n = "import" ∧ t.attr? n "type" = some "xml"

/-- `e` is what the node `n` of a document holds when the static imports of the document are replaced.
    The document comes from `origin`. -/
inductive Inlined (o : Options) (l : Library) : Tree → Option String → NodeId → Element → Prop
  /-- Anything else keeps what it holds. -/
  | kept {t : Tree} {origin : Option String} {n : NodeId} {below : NodeId → Element}
      (other : ¬ IsStatic t n)
      (children : ∀ c ∈ t.children n, Inlined o l t origin c (below c)) :
      Inlined o l t origin n
        (.mk (t.name n) (t.node n).attrs (t.text n) (t.computed n) ((t.children n).map below))
  /-- An import becomes a group with the content of its target, which is inlined and then edited by the
      rules. -/
  | replaced {t : Tree} {origin : Option String} {n : NodeId} {below : NodeId → Element} {name : String}
      {e e₁ e₂ : Element}
      (static : IsStatic t n)
      (rules : ∀ c ∈ t.children n, Inlined o l t origin c (below c))
      (named : target t n = .ok name)
      (found : l.find? (o.resolve name origin) = some e)
      (document : Inlined o l (Tree.ofElement e) (some (o.resolve name origin)) 0 e₁)
      (edit : edited o l (t.attr? n "transform") origin ((t.children n).map below) e₁ = some e₂) :
      Inlined o l t origin n
        (.mk "items" ((t.node n).attrs.filter fun a => a.1 == "name") "" (t.computed n) e₂.children)

variable {o : Options} {l : Library} {t t' : Tree} {P : NodeId → Prop} {f : NodeId → NodeId} {n root : NodeId}
  {origin transform : Option String} {e e' : Element}

/-- Inlining has one result at most. -/
theorem Inlined.unique (h : Inlined o l t origin n e) (h' : Inlined o l t origin n e') : e = e' := by
  induction h generalizing e' with
  | kept other _ ih =>
    cases h' with
    | kept _ children' => rw [List.map_congr_left fun c hc => ih c hc (children' c hc)]
    | replaced static => exact absurd static other
  | @replaced t origin n below name e e₁ e₂ static _ named found _ edit ihRules ihDocument =>
    cases h' with
    | kept other => exact absurd static other
    | @replaced _ _ _ below' name' e' e₁' e₂' _ rules' named' found' document' edit' =>
      obtain rfl : name = name' := by
        rw [named] at named'
        exact Except.ok.inj named'
      obtain rfl : e = e' := Option.some.inj (found.symm.trans found')
      obtain rfl := ihDocument document'
      rw [← List.map_congr_left fun c hc => ihRules c hc (rules' c hc), edit] at edit'
      rw [Option.some.inj edit']

/-! ### The same document elsewhere -/

theorem isStatic_alike (h : Alike P f t t') (hn : P n) : IsStatic t' (f n) ↔ IsStatic t n := by
  rw [IsStatic, IsStatic, h.name hn, h.attr? hn]

theorem target_alike (h : Alike P f t t') (hn : P n) {name : String} (ht : target t n = .ok name) :
    target t' (f n) = .ok name := by
  unfold target at ht ⊢
  rw [h.attr? hn, h.attr? hn]
  split at ht
  · exact ht
  · exact (Query.evaluate_map h (n := .element n) hn _).trans ht
  · cases ht

/-- Elements that are found at nodes are found at the nodes that stand for them. -/
theorem exists_below (h : Alike P f t t') (hn : P n) (below : NodeId → Element) :
    ∃ below', (∀ c ∈ t.children n, below' (f c) = below c)
      ∧ (t'.children (f n)).map below' = (t.children n).map below := by
  classical
  let below' : NodeId → Element := fun m =>
    if hm : ∃ c ∈ t.children n, f c = m then below hm.choose else below m
  have heq : ∀ c ∈ t.children n, below' (f c) = below c := by
    intro c hc
    have hm : ∃ d ∈ t.children n, f d = f c := ⟨c, hc, rfl⟩
    have hd := hm.choose_spec
    show (if hm : _ then _ else _) = _
    rw [dif_pos hm, h.injective _ c (h.closed.child h.wellFormed hn hd.1)
      (h.closed.child h.wellFormed hn hc) hd.2]
  refine ⟨below', heq, ?_⟩
  rw [h.children n hn, List.map_map]
  exact List.map_congr_left heq

/-- Inlining sees the document only. -/
theorem Inlined.alike (hi : Inlined o l t origin n e) (h : Alike P f t t') (hn : P n) :
    Inlined o l t' origin (f n) e := by
  induction hi generalizing t' f P with
  | @kept t origin n below other _ ih =>
    obtain ⟨below', heq, hmap⟩ := exists_below h hn below
    rw [← hmap, ← h.name hn, ← h.attrs hn, ← h.text hn, ← h.computed hn]
    refine .kept (fun hs => other ((isStatic_alike h hn).mp hs)) fun m hm => ?_
    rw [h.children n hn] at hm
    obtain ⟨c, hc, rfl⟩ := List.mem_map.mp hm
    rw [heq c hc]
    exact ih c hc h (h.closed.child h.wellFormed hn hc)
  | @replaced t origin n below name e e₁ e₂ static _ named found document edit ihRules _ =>
    obtain ⟨below', heq, hmap⟩ := exists_below h hn below
    rw [← h.attrs hn, ← h.computed hn]
    rw [← hmap, ← h.attr? hn] at edit
    refine .replaced ((isStatic_alike h hn).mpr static) (fun m hm => ?_)
      (target_alike h hn named) found document edit
    · rw [h.children n hn] at hm
      obtain ⟨c, hc, rfl⟩ := List.mem_map.mp hm
      rw [heq c hc]
      exact ihRules c hc h (h.closed.child h.wellFormed hn hc)

/-! ## Rules in a store -/

variable {load : Loader} {d d' : Desk} {rule : NodeId} {text source : String}

theorem extends_fetch {path : String} (h : fetch load path d = .ok e d') :
    d.library.Extends load d'.library ∧ d'.library.find? path = some e := by
  obtain ⟨l, hl, rfl⟩ := Action.within_eq_ok.mp h
  exact Library.extends_fetch hl

theorem extends_replacement (h : replacement o load rule transform origin d = .ok text d') :
    d.library.Extends load d'.library := by
  unfold replacement at h
  rw [Action.get_bind_eq_ok] at h
  generalize d.tree.attr? rule "type" = kind at h
  split at h
  · obtain ⟨-, rfl⟩ := Action.pure_eq_ok.mp h
    exact .refl
  · obtain ⟨-, rfl⟩ := Action.pure_eq_ok.mp h
    exact .refl
  · split at h
    · exact (Action.failAt_eq_ok.mp h).elim
    · obtain ⟨e, d₁, hf, h⟩ := Action.bind_eq_ok.mp h
      obtain ⟨-, rfl⟩ := Action.ofExcept_eq_ok.mp h
      exact (extends_fetch hf).1

theorem library_replaceAll {ss : List Query.NodeRef} (h : replaceAll source text rule ss d = .ok () d') :
    d'.library = d.library := by
  induction ss generalizing d with
  | nil =>
    obtain ⟨-, rfl⟩ := Action.pure_eq_ok.mp h
    rfl
  | cons s ss ih =>
    obtain ⟨_, d₁, h₁, h₂⟩ := Action.bind_eq_ok.mp h
    refine (ih h₂).trans ?_
    cases s with
    | document id =>
      obtain ⟨_, _, -, h₁⟩ := Action.bind_eq_ok.mp h₁
      exact (Action.failAt_eq_ok.mp h₁).elim
    | _ => rw [Action.modify_eq_ok.mp h₁]

theorem extends_applyRule (h : applyRule o load root transform origin rule d = .ok () d') :
    d.library.Extends load d'.library := by
  unfold applyRule at h
  rw [Action.get_bind_eq_ok] at h
  generalize d.tree.attr? rule "from" = selection at h
  split at h
  · exact (Action.failAt_eq_ok.mp h).elim
  · obtain ⟨text, d₁, h₁, h⟩ := Action.bind_eq_ok.mp h
    rw [Action.get_bind_eq_ok] at h
    obtain ⟨selected, -, h⟩ := Action.ofExcept_bind_eq_ok.mp h
    rw [library_replaceAll h]
    exact extends_replacement h₁

theorem extends_applyRules {rules : List NodeId} (h : applyRules o load root transform origin rules d = .ok () d') :
    d.library.Extends load d'.library := by
  induction rules generalizing d with
  | nil =>
    obtain ⟨-, rfl⟩ := Action.pure_eq_ok.mp h
    exact .refl
  | cons rule rules ih =>
    unfold applyRules at h
    rw [Action.get_bind_eq_ok] at h
    split at h
    · obtain ⟨_, d₁, h₁, h₂⟩ := Action.bind_eq_ok.mp h
      exact (extends_applyRule h₁).trans (ih h₂)
    · exact ih h

theorem extends_edit {node : NodeId} (h : edit o load node root origin d = .ok () d') :
    d.library.Extends load d'.library := by
  unfold edit at h
  rw [Action.get_bind_eq_ok] at h
  exact extends_applyRules h

/-- The text that a rule puts in is the one its element says. -/
theorem ruleText_of_replacement (hwf : d.tree.WellFormed) {r : Element} (hr : Holds d.tree rule r)
    (h : replacement o load rule transform origin d = .ok text d') (hl : d'.library.Extends load l) :
    ruleText o l transform origin r = some text := by
  unfold replacement at h
  rw [Action.get_bind_eq_ok] at h
  unfold ruleText
  rw [← hr.attr?, ← hr.stringValue hwf]
  generalize d.tree.attr? rule "type" = kind at h
  split at h
  · obtain ⟨rfl, rfl⟩ := Action.pure_eq_ok.mp h
    rfl
  · obtain ⟨rfl, rfl⟩ := Action.pure_eq_ok.mp h
    rfl
  · split at h
    · exact (Action.failAt_eq_ok.mp h).elim
    · obtain ⟨e, d₁, hf, h⟩ := Action.bind_eq_ok.mp h
      obtain ⟨he, rfl⟩ := Action.ofExcept_eq_ok.mp h
      rw [if_neg ‹_›, if_neg ‹_›]
      simp only [Option.bind_eq_bind, Option.bind_some, hl.keeps _ _ (extends_fetch hf).2, he]
      rfl

/-- The same replacement in two copies of a document. -/
theorem replaced_of_replace {s : Query.NodeRef} (h : Alike P f d.tree t') (hs : P s.anchor)
    (hr : replace source text rule s d = .ok () d') :
    ∃ t'', replaced text t' (s.map f) = some t'' ∧ Alike P f d'.tree t'' := by
  cases s with
  | element id =>
    rw [Action.modify_eq_ok.mp hr]
    exact ⟨_, rfl, h.setValue hs text⟩
  | attr id name =>
    rw [Action.modify_eq_ok.mp hr]
    exact ⟨_, rfl, h.setAttr hs name text⟩
  | text id =>
    rw [Action.modify_eq_ok.mp hr]
    exact ⟨_, rfl, h.setText hs text⟩
  | document id =>
    obtain ⟨_, _, -, hr⟩ := Action.bind_eq_ok.mp hr
    exact (Action.failAt_eq_ok.mp hr).elim

theorem replaced_of_replaceAll {ss : List Query.NodeRef} (h : Alike P f d.tree t')
    (hss : ∀ s ∈ ss, P s.anchor) (hr : replaceAll source text rule ss d = .ok () d') :
    ∃ t'', (ss.map (Query.NodeRef.map f)).foldlM (replaced text) t' = some t'' ∧ Alike P f d'.tree t'' := by
  induction ss generalizing d t' with
  | nil =>
    obtain ⟨-, rfl⟩ := Action.pure_eq_ok.mp hr
    exact ⟨t', rfl, h⟩
  | cons s ss ih =>
    obtain ⟨_, d₁, h₁, h₂⟩ := Action.bind_eq_ok.mp hr
    obtain ⟨t₁, ht₁, ha₁⟩ := replaced_of_replace h (hss s List.mem_cons_self) h₁
    obtain ⟨t₂, ht₂, ha₂⟩ := ih ha₁ (fun s' hs' => hss s' (List.mem_cons_of_mem s hs')) h₂
    refine ⟨t₂, ?_, ha₂⟩
    rw [List.map_cons, List.foldlM_cons, ht₁]
    exact ht₂

/-- A rule does to a document in the store what it does to a copy that stands alone. -/
theorem ruled_of_applyRule (h : Alike P f d.tree t') (hroot : P root) (hf : f root = 0) {r : Element}
    (hr : Holds d.tree rule r) (hname : d.tree.name rule = "map")
    (ha : applyRule o load root transform origin rule d = .ok () d') (hl : d'.library.Extends load l) :
    ∃ t'', ruled o l transform origin t' r = some t'' ∧ Alike P f d'.tree t'' := by
  unfold applyRule at ha
  rw [Action.get_bind_eq_ok] at ha
  cases hfrom : d.tree.attr? rule "from" with
  | none =>
    rw [hfrom] at ha
    exact (Action.failAt_eq_ok.mp ha).elim
  | some source =>
    rw [hfrom] at ha
    obtain ⟨text, d₁, h₁, ha⟩ := Action.bind_eq_ok.mp ha
    rw [Action.get_bind_eq_ok] at ha
    obtain ⟨selected, hs, ha⟩ := Action.ofExcept_bind_eq_ok.mp ha
    rw [library_replaceAll ha] at hl
    have htext := ruleText_of_replacement h.wellFormed hr h₁ hl
    rw [← replacement_ok h₁] at h
    have hsel : Query.select t' (.document 0) source = .ok (selected.map (Query.NodeRef.map f)) := by
      have hmap := Query.select_map h (n := .document root) hroot source
      rw [Query.NodeRef.map, hf, hs] at hmap
      exact hmap
    obtain ⟨t'', ht'', halike⟩ := replaced_of_replaceAll h (Query.select_mem h (n := .document root) hroot hs) ha
    refine ⟨t'', ?_, halike⟩
    rw [ruled, if_pos (hr.name.symm.trans hname), ← hr.attr?, hfrom]
    simp only [Option.bind_eq_bind, Option.bind_some, htext, hsel]
    exact ht''

/-- All other documents. -/
theorem closed_others (hwf : t.WellFormed) (hc : Closed t P) : Closed t fun n => t.Live n ∧ ¬ P n where
  live := fun _ hn => hn.1
  up := fun n p hn hp => ⟨(hwf.live_of_parent hp).2, fun hP => hn.2 (hc.down p n hP hp)⟩
  down := fun p c hp hc' => ⟨(hwf.live_of_parent hc').1, fun hP => hp.2 (hc.up c p hP hc')⟩

/-- The rules of an import do to a document in the store what they do to a copy that stands alone. -/
theorem ruled_of_applyRules {rules : List NodeId} {rs : List Element} (h : Alike P f d.tree t')
    (hroot : P root) (hf : f root = 0) (hr : d.tree.parent? root = none) (hrs : HoldsAll d.tree rules rs)
    (hout : ∀ rule ∈ rules, d.tree.Live rule ∧ ¬ P rule)
    (ha : applyRules o load root transform origin rules d = .ok () d') (hl : d'.library.Extends load l) :
    ∃ t'', rs.foldlM (ruled o l transform origin) t' = some t'' ∧ Alike P f d'.tree t'' := by
  induction rules generalizing d t' rs with
  | nil =>
    obtain ⟨-, rfl⟩ := Action.pure_eq_ok.mp ha
    cases rs with
    | nil => exact ⟨t', rfl, h⟩
    | cons r rs => rw [HoldsAll] at hrs; exact hrs.elim
  | cons rule rules ih =>
    cases rs with
    | nil => rw [HoldsAll] at hrs; exact hrs.elim
    | cons r rs =>
      rw [HoldsAll] at hrs
      have hout' : ∀ rule ∈ rules, d.tree.Live rule ∧ ¬ P rule :=
        fun m hm => hout m (List.mem_cons_of_mem rule hm)
      unfold applyRules at ha
      rw [Action.get_bind_eq_ok] at ha
      split at ha
      · rename_i hname
        obtain ⟨_, d₁, h₁, h₂⟩ := Action.bind_eq_ok.mp ha
        have hQ := closed_others h.wellFormed h.closed
        have he := edited_applyRule h.wellFormed hQ hr (fun hq => hq.2 hroot) h₁
        obtain ⟨t₁, ht₁, ha₁⟩ := ruled_of_applyRule h hroot hf hrs.1 (eq_of_beq hname) h₁
          ((extends_applyRules h₂).trans hl)
        have hrs₁ : HoldsAll d₁.tree rules rs :=
          HoldsAll.congr h.wellFormed hrs.2 fun i hi n hn => (he.keeps n (hQ.below (hout' i hi) hn)).2
        obtain ⟨t₂, ht₂, ha₂⟩ := ih ha₁ (he.root root hr) hrs₁
          (fun m hm => ⟨he.live m (hout' m hm).1, (hout' m hm).2⟩) h₂
        refine ⟨t₂, ?_, ha₂⟩
        rw [List.foldlM_cons, ht₁]
        exact ht₂
      · rename_i hname
        obtain ⟨t₂, ht₂, ha₂⟩ := ih h hr hrs.2 hout' ha
        refine ⟨t₂, ?_, ha₂⟩
        have hno : ruled o l transform origin t' r = some t' :=
          if_neg fun he => hname (beq_iff_eq.mpr (hrs.1.name.trans he))
        rw [List.foldlM_cons, hno]
        exact ht₂

/-- The rules of an import make of a document what their elements say. -/
theorem edited_of_edit {node : NodeId} {rs : List Element} (hwf : d.tree.WellFormed)
    (hroot : d.tree.Live root) (hr : d.tree.parent? root = none)
    (hout : ¬ Under d.tree root node) (he : Holds d.tree root e) (hrs : HoldsAll d.tree (d.tree.children node) rs)
    (h : edit o load node root origin d = .ok () d') (hl : d'.library.Extends load l) :
    ∃ e', edited o l (d.tree.attr? node "transform") origin rs e = some e' ∧ Holds d'.tree root e' := by
  have hg := Tree.grafted_ofElement e
  obtain ⟨f, ha, hf⟩ := Tree.exists_alike hwf hg.wellFormed hroot hg.live_root hr hg.parent?_root he hg.holds
  unfold edit at h
  rw [Action.get_bind_eq_ok] at h
  obtain ⟨t'', ht'', ha'⟩ := ruled_of_applyRules ha .self hf hr hrs (fun rule hm => by
    have hp := hwf.mem_children.mp hm
    refine ⟨(hwf.live_of_parent hp).1, fun hu => hout (hu.of_parent hp ?_)⟩
    rintro rfl
    rw [hr] at hp
    cases hp) h hl
  refine ⟨t''.element 0, ?_, ?_⟩
  · rw [edited, ht'']
    rfl
  · rw [← hf, ha'.element .self]
    exact ha'.wellFormed.holds_element root

end Import

end Stencil
