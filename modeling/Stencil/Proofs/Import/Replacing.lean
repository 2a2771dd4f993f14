/-
  What a rule does to the nodes that its query has selected.

  The nodes are selected once and then given the text of the rule one after another.  In between, an element that
  is given the text lets its children go, and some of these may be selected too, or hold a text or an attribute
  that is.

    1. **One text for all** — whatever is written is the text of the rule, and lists of children only become empty.
       So nothing that has been written is lost again, and it does not matter which nodes contain which
       (`Replaced.trans`, `Replaced.stringValue`).
    2. **Nothing else** — one replacement changes the node, and the links to its children if it is an element
       (`replaced_replace`); by induction, all of them change no more than that (`replaced_replaceAll`).
    3. **One rule after another** — a rule selects in what the rules before it have left, but it reads what it says
       itself in a document that no rule changes (`Rewritten`, `edit_replaces_selection`).
-/
import Mathlib
import Stencil.Proofs.Import.Inlining
import Stencil.Proofs.Import.Splices

set_option autoImplicit false

namespace Stencil.Import

open Stencil.Tree (Under Closed Keeps)
open Stencil.Query (NodeRef)

variable {t t' t₁ t₂ : Tree} {id root rule node : NodeId} {n : NodeRef} {ms ns selected : List NodeRef} {d d' d₁ : Desk}
  {o : Options} {load : Loader} {text source : String} {transform origin : Option String} {rules : List NodeId}

/-- The attributes of an element that are among some nodes. -/
def attrsOf (id : NodeId) (selected : List NodeRef) : List String :=
  selected.filterMap fun
    | .attr i name => if i = id then some name else none
    | _ => none

/-- A node after nodes have been given a text.  A selected attribute has the text as its value, a selected text is
    that text, and a selected element holds it and nothing else; its children have no parent any more. -/
def overwritten (t : Tree) (selected : List NodeRef) (text : String) (id : NodeId) : Node :=
  { t.node id with
    attrs := (attrsOf id selected).foldl (fun attrs name => attrs.insert name text) (t.node id).attrs
    text := if .element id ∈ selected ∨ .text id ∈ selected then text else t.text id
    children := if .element id ∈ selected then [] else t.children id
    parent := (t.parent? id).filter fun p => decide (.element p ∉ selected) }

/-- `t'` is `t` after nodes have been given a text, and nothing else has changed. -/
structure Replaced (t t' : Tree) (selected : List NodeRef) (text : String) : Prop where
  live : ∀ id, t'.Live id ↔ t.Live id
  node : ∀ id, t'.node id = overwritten t selected text id

theorem mem_attrsOf {name : String} : name ∈ attrsOf id selected ↔ .attr id name ∈ selected := by
  rw [attrsOf, List.mem_filterMap]
  constructor
  · rintro ⟨n, hn, hname⟩
    cases n with
    | attr i key =>
      dsimp only at hname
      split at hname
      · rename_i hi
        cases hname
        rwa [hi] at hn
      · cases hname
    | _ => cases hname
  · intro h
    exact ⟨_, h, if_pos rfl⟩

theorem get?_foldl_insert (names : List String) (attrs : Entries String) (key : String) :
    (names.foldl (fun attrs name => attrs.insert name text) attrs).get? key
      = if key ∈ names then some text else attrs.get? key := by
  induction names generalizing attrs with
  | nil => simp
  | cons name names ih =>
    rw [List.foldl_cons, ih, Entries.get?_insert]
    by_cases hkey : name = key
    · simp [hkey]
    · simp [hkey, Ne.symm hkey]

theorem filter_parent (h : ∀ p, t.parent? id = some p → .element p ∉ selected) :
    (t.parent? id).filter (fun p => decide (NodeRef.element p ∉ selected)) = t.parent? id := by
  cases hp : t.parent? id with
  | none => rfl
  | some p => simp [h p hp]

/-- Where nothing of a node is selected, and its parent is not either, the node is what it was. -/
theorem overwritten_eq (hattr : ∀ name, .attr id name ∉ selected) (helement : .element id ∉ selected)
    (htext : .text id ∉ selected) (hparent : ∀ p, t.parent? id = some p → .element p ∉ selected) :
    overwritten t selected text id = t.node id := by
  have hattrs : attrsOf id selected = [] := by
    rw [List.eq_nil_iff_forall_not_mem]
    exact fun name hname => hattr name (mem_attrsOf.mp hname)
  have hneither : ¬ (.element id ∈ selected ∨ .text id ∈ selected) := fun h => h.elim helement htext
  rw [overwritten, hattrs, filter_parent hparent, if_neg helement, if_neg hneither]
  rfl

namespace Replaced

theorem nil (text : String) : Replaced t t [] text where
  live := fun _ => Iff.rfl
  node := fun _ => (overwritten_eq (fun _ => List.not_mem_nil) List.not_mem_nil List.not_mem_nil
    fun _ _ => List.not_mem_nil).symm

/-- What is given the text later has it, and what has it already keeps it. -/
theorem trans (h : Replaced t t₁ ms text) (h' : Replaced t₁ t₂ ns text) : Replaced t t₂ (ms ++ ns) text where
  live := fun id => (h'.live id).trans (h.live id)
  node := by
    intro id
    rw [h'.node]
    unfold overwritten Tree.text Tree.children Tree.parent?
    rw [h.node]
    unfold overwritten Tree.text Tree.children Tree.parent?
    simp only [Node.mk.injEq, true_and, and_true]
    refine ⟨?_, ?_, ?_, ?_⟩
    -- attributes, text, children and parent, each first by the earlier nodes and then by the later ones
    · rw [attrsOf, attrsOf, attrsOf, List.filterMap_append, List.foldl_append]
    · simp only [List.mem_append]
      grind
    · by_cases hms : .element id ∈ ms <;> simp [hms]
    · rw [Option.filter_filter]
      simp only [List.mem_append, not_or, Bool.decide_and]

theorem attr? (h : Replaced t t' selected text) (id : NodeId) (name : String) :
    t'.attr? id name = if .attr id name ∈ selected then some text else t.attr? id name := by
  unfold Tree.attr?
  rw [h.node, overwritten, get?_foldl_insert]
  simp only [mem_attrsOf]

/-- Every selected node has the text as its string value, an attribute behind a computed value of its name apart. -/
theorem stringValue (h : Replaced t t' selected text) (hn : n ∈ selected) (hdocument : ∀ r, n ≠ .document r)
    (hcomputed : ∀ id name, n = .attr id name → (t.computed id).get? name = none) : n.stringValue t' = text := by
  cases n with
  | document r => exact absurd rfl (hdocument r)
  | element id =>
    have hleaf : t'.children id = [] := by
      unfold Tree.children
      rw [h.node]
      exact if_pos hn
    have htext : t'.text id = text := by
      unfold Tree.text
      rw [h.node]
      exact if_pos (.inl hn)
    exact (Tree.stringValue_of_leaf hleaf).trans htext
  | attr id name =>
    have hvalue : t'.attribute? id name = some text := by
      have hsame : t'.computed id = t.computed id := by
        unfold Tree.computed
        rw [h.node]
        rfl
      rw [Tree.attribute?, hsame, hcomputed id name rfl, h.attr?, if_pos hn]
      rfl
    exact congrArg (Option.getD · "") hvalue
  | text id =>
    show t'.text id = text
    unfold Tree.text
    rw [h.node]
    exact if_pos (.inr hn)

end Replaced

/-! ## One replacement -/

theorem replaced_setValue (hwf : t.WellFormed) (hl : t.Live id) (text : String) :
    Replaced t (t.setValue id text) [.element id] text where
  live := fun _ => Tree.live_setValue text
  node := by
    intro n
    rw [hwf.node_setValue]
    by_cases hp : t.parent? n = some id
    · -- a child of the node is another node
      have hne : n ≠ id := by
        rintro rfl
        exact hwf.parent_ne hp rfl
      rw [if_pos hp, overwritten, hp]
      simp [hne, attrsOf, Tree.text, Tree.children, Option.filter_some]
    · have hparent : ∀ p, t.parent? n = some p → NodeRef.element p ∉ [NodeRef.element id] := by
        intro p h hmem
        cases List.mem_singleton.mp hmem
        exact hp h
      rw [if_neg hp]
      by_cases hn : n = id
      · rw [hn] at hparent ⊢
        rw [if_pos ⟨rfl, hl.1⟩, overwritten, filter_parent hparent]
        simp [attrsOf, Tree.parent?]
      · rw [if_neg fun h => hn h.1, overwritten_eq (by simp) (by simpa using hn) (by simp) hparent]

/-- A change of one node replaces, if it does there what is wanted, and nothing of another node is selected. -/
theorem replaced_modify {f : Node → Node} (hl : t.Live id) (hid : overwritten t ns text id = f (t.node id))
    (hother : ∀ i, id ≠ i → overwritten t ns text i = t.node i) : Replaced t (t.modify id f) ns text where
  live := fun i => Tree.live_modify t id i f
  node := by
    intro i
    rw [Tree.node_modify]
    by_cases hi : id = i
    · subst hi
      rw [if_pos ⟨rfl, hl.1⟩, hid]
    · rw [if_neg fun h => hi h.1, hother i hi]

theorem replaced_setAttr (hl : t.Live id) (name text : String) :
    Replaced t (t.setAttr id name text) [.attr id name] text := by
  refine replaced_modify hl ?_ fun i hi => ?_
  · rw [overwritten, filter_parent (by simp)]
    simp [attrsOf, Tree.text, Tree.children, Tree.parent?]
  · exact overwritten_eq (by simp [Ne.symm hi]) (by simp) (by simp) (by simp)

theorem replaced_setText (hl : t.Live id) (text : String) : Replaced t (t.setText id text) [.text id] text := by
  refine replaced_modify hl ?_ fun i hi => ?_
  · rw [overwritten, filter_parent (by simp)]
    simp [attrsOf, Tree.children, Tree.parent?]
  · exact overwritten_eq (by simp) (by simp) (by simp [Ne.symm hi]) (by simp)

/-- A node that is replaced is no document, and nothing else is changed. -/
theorem replaced_replace (hwf : d.tree.WellFormed) (hl : d.tree.Live n.anchor)
    (h : replace source text rule n d = .ok () d') :
    (∀ r, n ≠ .document r) ∧ Replaced d.tree d'.tree [n] text ∧ d'.library = d.library := by
  cases n with
  | element id =>
    rw [Action.modify_eq_ok.mp h]
    exact ⟨fun r hr => (nomatch hr), replaced_setValue hwf hl text, rfl⟩
  | attr id name =>
    rw [Action.modify_eq_ok.mp h]
    exact ⟨fun r hr => (nomatch hr), replaced_setAttr hl name text, rfl⟩
  | text id =>
    rw [Action.modify_eq_ok.mp h]
    exact ⟨fun r hr => (nomatch hr), replaced_setText hl text, rfl⟩
  | document id =>
    obtain ⟨_, _, -, h⟩ := Action.bind_eq_ok.mp h
    exact (Action.failAt_eq_ok.mp h).elim

theorem replaced_replaceAll (hwf : d.tree.WellFormed) (hl : ∀ n ∈ ns, d.tree.Live n.anchor)
    (h : replaceAll source text rule ns d = .ok () d') :
    (∀ r, .document r ∉ ns) ∧ Replaced d.tree d'.tree ns text ∧ d'.library = d.library := by
  induction ns generalizing d with
  | nil =>
    obtain ⟨-, rfl⟩ := Action.pure_eq_ok.mp h
    exact ⟨fun r hr => (nomatch hr), .nil text, rfl⟩
  | cons n ns ih =>
    obtain ⟨_, d₁, h₁, h₂⟩ := Action.bind_eq_ok.mp h
    obtain ⟨hno, hone, hlibrary⟩ := replaced_replace hwf (hl n List.mem_cons_self) h₁
    have hwf₁ := (edited_replace hwf Tree.closed_none id h₁).wellFormed
    obtain ⟨hnone, hall, hlibrary'⟩ :=
      ih hwf₁ (fun m hm => (hone.live m.anchor).mpr (hl m (List.mem_cons_of_mem n hm))) h₂
    refine ⟨fun r hr => ?_, hone.trans hall, hlibrary'.trans hlibrary⟩
    rcases List.mem_cons.mp hr with hr | hr
    · exact hno r hr.symm
    · exact hnone r hr

/-! ## Rules -/

/-- A rule replaces what it selects in the document, and nothing else. -/
theorem replaced_applyRule (hwf : d.tree.WellFormed) (hl : d.tree.Live root) (hr : d.tree.parent? root = none)
    (h : applyRule o load root transform origin rule d = .ok () d') :
    ∃ source text selected d₁, d.tree.attr? rule "from" = some source
      ∧ replacement o load rule transform origin d = .ok text d₁
      ∧ Query.select d.tree (.document root) source = .ok selected ∧ (∀ r, .document r ∉ selected)
      ∧ Replaced d.tree d'.tree selected text ∧ d'.library = d₁.library := by
  unfold applyRule at h
  rw [Action.get_bind_eq_ok] at h
  cases hsource : d.tree.attr? rule "from" with
  | none =>
    simp only [hsource] at h
    exact (Action.failAt_eq_ok.mp h).elim
  | some source =>
    simp only [hsource] at h
    obtain ⟨text, d₁, htext, h⟩ := Action.bind_eq_ok.mp h
    rw [Action.get_bind_eq_ok] at h
    obtain ⟨selected, hselected, h⟩ := Action.ofExcept_bind_eq_ok.mp h
    have htree := replacement_ok htext
    rw [htree] at hselected
    have hlive : ∀ n ∈ selected, d₁.tree.Live n.anchor := by
      intro n hn
      rw [htree]
      exact hwf.live_of_under hl (Query.select_inside hwf hr hselected n hn)
    obtain ⟨hnone, hreplaced, hlibrary⟩ := replaced_replaceAll (htree ▸ hwf) hlive h
    rw [htree] at hreplaced
    exact ⟨source, text, selected, d₁, rfl, htext, hselected, hnone, hreplaced, hlibrary⟩

theorem fetch_of_library {path : String} {e : Element} (h : fetch load path d = .ok e d') (t : Tree) :
    fetch load path ⟨t, d.library⟩ = .ok e ⟨t, d'.library⟩ := by
  obtain ⟨l, hl, rfl⟩ := Action.within_eq_ok.mp h
  exact Action.within_eq_ok.mpr ⟨l, hl, rfl⟩

/-- The text of a rule depends on what the rule holds and on the documents that have been read. -/
theorem replacement_of_same (htype : t.attr? rule "type" = d.tree.attr? rule "type")
    (hvalue : t.stringValue rule = d.tree.stringValue rule)
    (h : replacement o load rule transform origin d = .ok text d') :
    replacement o load rule transform origin ⟨t, d.library⟩ = .ok text ⟨t, d'.library⟩ := by
  unfold replacement at h ⊢
  rw [Action.get_bind_eq_ok] at h ⊢
  dsimp only at h ⊢
  rw [htype, hvalue]
  generalize d.tree.attr? rule "type" = kind at h ⊢
  revert h
  split
  · intro h
    obtain ⟨rfl, rfl⟩ := Action.pure_eq_ok.mp h
    exact Action.pure_eq_ok.mpr ⟨rfl, rfl⟩
  · intro h
    obtain ⟨rfl, rfl⟩ := Action.pure_eq_ok.mp h
    exact Action.pure_eq_ok.mpr ⟨rfl, rfl⟩
  · cases transform with
    | none => exact fun h => (Action.failAt_eq_ok.mp h).elim
    | some name =>
      intro h
      obtain ⟨e, d₁, hfetch, h⟩ := Action.bind_eq_ok.mp h
      obtain ⟨hvalue, rfl⟩ := Action.ofExcept_eq_ok.mp h
      exact Action.bind_eq_ok.mpr ⟨e, _, fetch_of_library hfetch t, Action.ofExcept_eq_ok.mpr ⟨hvalue, rfl⟩⟩

/-- Rules have been applied one after another to the document with some root.  Each says what it says in `t`, selects
    in what the rules before it have left, and replaces what it has selected. -/
inductive Rewritten (o : Options) (load : Loader) (root : NodeId) (transform origin : Option String) (t : Tree) :
    List NodeId → Desk → Desk → Prop
  | nil {d : Desk} : Rewritten o load root transform origin t [] d d
  | cons {rule : NodeId} {rules : List NodeId} {source text : String} {selected : List NodeRef} {d d₁ d' : Desk}
      (names : t.attr? rule "from" = some source)
      (gives : replacement o load rule transform origin ⟨t, d.library⟩ = .ok text ⟨t, d₁.library⟩)
      (selects : Query.select d.tree (.document root) source = .ok selected)
      (noDocument : ∀ r, .document r ∉ selected) (replaced : Replaced d.tree d₁.tree selected text)
      (rest : Rewritten o load root transform origin t rules d₁ d') :
      Rewritten o load root transform origin t (rule :: rules) d d'

/-- What stands in another document holds what it held. -/
theorem stringValue_of_beyond (hwf : t.WellFormed) (hwf' : t'.WellFormed) (hr : t.parent? root = none)
    (hkeeps : Keeps (Beyond t root) t t') (hid : Beyond t root id) : t'.stringValue id = t.stringValue id := by
  have hholds := hwf.holds_element id
  have hholds' : Tree.Holds t' id (t.element id) :=
    hholds.congr hwf fun n hn => (hkeeps n ((closed_beyond hwf hr).below hid hn)).2
  rw [hholds.stringValue hwf, hholds'.stringValue hwf']

theorem rewritten_of_applyRules (hwf : t.WellFormed) (hl : t.Live root) (hr : t.parent? root = none)
    (hed : Edited (Beyond t root) t d.tree) (hrules : ∀ rule ∈ rules, Beyond t root rule)
    (h : applyRules o load root transform origin rules d = .ok () d') :
    Rewritten o load root transform origin t (rules.filter fun rule => t.name rule == "map") d d' := by
  induction rules generalizing d with
  | nil =>
    obtain ⟨-, rfl⟩ := Action.pure_eq_ok.mp h
    exact .nil
  | cons rule rules ih =>
    have hrule := hrules rule List.mem_cons_self
    have hrules' : ∀ r ∈ rules, Beyond t root r := fun r hr => hrules r (List.mem_cons_of_mem rule hr)
    have hsame := (hed.keeps rule hrule).2
    unfold applyRules at h
    rw [Action.get_bind_eq_ok, hed.keeps.name hrule] at h
    rw [List.filter_cons]
    split at h
    · rename_i hname
      rw [if_pos hname]
      obtain ⟨_, d₁, h₁, h₂⟩ := Action.bind_eq_ok.mp h
      have hclosed := hed.keeps.closed (closed_beyond hwf hr) hwf hed.wellFormed
      have hed₁ := hed.trans (edited_applyRule hed.wellFormed hclosed (hed.root root hr) (fun hb => hb.2 .self) h₁)
      obtain ⟨source, text, selected, d₂, hnames, hgives, hselects, hnone, hreplaced, hlibrary⟩ :=
        replaced_applyRule hed.wellFormed (hed.live root hl) (hed.root root hr) h₁
      have hattr : ∀ key, t.attr? rule key = d.tree.attr? rule key := fun key => by rw [Tree.attr?, Tree.attr?, hsame]
      have hvalue := stringValue_of_beyond hwf hed.wellFormed hr hed.keeps hrule
      -- the rule stands outside of the document, so it says now what it said at first
      have hgives' := replacement_of_same (hattr "type") hvalue.symm hgives
      rw [← hlibrary] at hgives'
      exact .cons ((hattr "from").trans hnames) hgives' hselects hnone hreplaced (ih hed₁ hrules' h₂)
    · rename_i hname
      rw [if_neg hname]
      exact ih hed hrules' h

/-- The rules of an import, when they have been applied to a document that the import stands outside of.  They have
    been applied one after another, in the order of the children, and nothing outside the document has changed.  If
    there is one rule, each node that it has selected in the document as it was has the text of the rule as its
    string value, an attribute behind a computed value of its name apart, and of every node just the selected
    attributes, the selected text, what a selected element holds, and the link to a selected parent are changed. -/
theorem edit_replaces_selection (hwf : d.tree.WellFormed) (hl : d.tree.Live root) (hr : d.tree.parent? root = none)
    (hnode : ¬ Under d.tree root node) (h : edit o load node root origin d = .ok () d') :
    Rewritten o load root (d.tree.attr? node "transform") origin d.tree
        ((d.tree.children node).filter fun rule => d.tree.name rule == "map") d d'
      ∧ (∀ n, d.tree.Live n → ¬ Under d.tree root n → d'.tree.node n = d.tree.node n)
      ∧ ∀ rule, ((d.tree.children node).filter fun rule => d.tree.name rule == "map") = [rule] →
        ∃ source text selected l, d.tree.attr? rule "from" = some source
          ∧ replacement o load rule (d.tree.attr? node "transform") origin d = .ok text ⟨d.tree, l⟩
          ∧ Query.select d.tree (.document root) source = .ok selected
          ∧ (∀ n ∈ selected, (∀ id name, n = .attr id name → (d.tree.computed id).get? name = none) →
              n.stringValue d'.tree = text)
          ∧ ∀ id, d'.tree.node id = overwritten d.tree selected text id := by
  have hclosed := closed_beyond hwf hr
  have hrules : ∀ rule ∈ d.tree.children node, Beyond d.tree root rule := by
    intro rule hrule
    have hp := hwf.mem_children.mp hrule
    refine ⟨(hwf.live_of_parent hp).1, fun hu => hnode (hu.of_parent hp ?_)⟩
    rintro rfl
    rw [hr] at hp
    cases hp
  have hkeeps := (edited_edit hwf hclosed hr (fun hb => hb.2 .self) h).keeps
  unfold edit at h
  rw [Action.get_bind_eq_ok] at h
  have hrewritten := rewritten_of_applyRules hwf hl hr (.refl hwf hclosed) hrules h
  refine ⟨hrewritten, fun n hn hu => (hkeeps n ⟨hn, hu⟩).2, fun rule hone => ?_⟩
  rw [hone] at hrewritten
  cases hrewritten with
  | cons names gives selects noDocument replaced rest =>
    cases rest with
    | nil =>
      refine ⟨_, _, _, _, names, gives, selects, fun n hn hcomputed => ?_, replaced.node⟩
      refine replaced.stringValue hn ?_ hcomputed
      rintro r rfl
      exact noDocument r hn

/-- An import with one rule, and beside it a document in which the rule selects the root, a group with its attribute,
    and the field in the group with its text. -/
def overlap : Tree :=
  ((Tree.ofElement (.mk "import" [] "" .none
      [.mk "map" [("from", "//* | //@n | //text()"), ("type", "text")] "x" .none []])).graft none
    (.mk "f" [] "" .none [.mk "g" [("n", "1")] "" .none [.mk "item" [] "a" .none []]])).2

theorem select_overlap : Query.select overlap (.document 2) "//* | //@n | //text()"
    = .ok [.element 2, .element 3, .element 4, .attr 3 "n", .text 4] := by cbv

/-- The root lets the group go, and the group the field, before they are given the text themselves, and in the end all
    that is selected holds it. -/
theorem edit_replaces_selection_of_overlap :
    let o : Options := .standard ⟨2000, 1, 1, 0, 0, 0, 0⟩
    ∃ d', edit o (fun _ => .error (.of .exhausted)) 0 2 none ⟨overlap, .empty⟩ = .ok () d'
      ∧ (∀ n ∈ [NodeRef.element 2, .element 3, .element 4, .attr 3 "n", .text 4], n.stringValue d'.tree = "x")
      ∧ d'.tree.node 0 = overlap.node 0 := by
  intro o
  let load : Loader := fun _ => .error (.of .exhausted)
  have hsucceeds : Action.succeeds (edit o load 0 2 none ⟨overlap, .empty⟩) (fun _ _ => true) = true := by cbv
  obtain ⟨_, d', hrun, -⟩ := Action.succeeds_iff.mp hsucceeds
  have hgives : replacement o load 1 none none ⟨overlap, .empty⟩ = .ok "x" ⟨overlap, .empty⟩ := rfl
  have hgrafted := (Tree.grafted_ofElement (.mk "import" [] "" .none
      [.mk "map" [("from", "//* | //@n | //text()"), ("type", "text")] "x" .none []])).wellFormed.grafted
    (.mk "f" [] "" .none [.mk "g" [("n", "1")] "" .none [.mk "item" [] "a" .none []]])
  have hout : ¬ Under overlap 2 0 := Tree.not_under_root (by decide +kernel) (by decide)
  obtain ⟨-, hsame, hone⟩ := edit_replaces_selection (d := ⟨overlap, .empty⟩) hgrafted.wellFormed hgrafted.live_root
    hgrafted.parent?_root hout hrun
  have hrule : ((overlap.children 0).filter fun rule => overlap.name rule == "map") = [1] := by decide +kernel
  obtain ⟨source, text, selected, l, hfrom, htext, hselected, hvalues, -⟩ := hone 1 hrule
  have hsource : overlap.attr? 1 "from" = some "//* | //@n | //text()" := by decide +kernel
  cases hsource.symm.trans hfrom
  cases select_overlap.symm.trans hselected
  cases hgives.symm.trans htext
  refine ⟨d', hrun, fun n hn => hvalues n hn fun id name hattr => ?_, hsame 0 (by decide +kernel) hout⟩
  -- nothing is computed in the document
  have hid : id = 3 ∧ name = "n" := by
    subst hattr
    simpa using hn
  rw [hid.1]
  rfl

end Stencil.Import
