/-
  The text that the body of a `writer` makes.

  `render` keeps a stack of positions.  A group takes the place of the siblings behind it: they come back when the
  position behind the group is taken off the stack, and if nothing is behind the group, a node that stands for
  nothing is put there first.  So what is on the stack below a run of siblings does not matter for the run.

    1. **One stop** — `visit` says what happens at a stop: a field is filled and written, and a group gets a node
       behind it if it is the last one (`entered`).
    2. **The run** — whatever is on the stack below, a walk along siblings is the visits of its stops, one behind
       the other (`renderFrom_stops`).  By induction on how many nodes are visited: what happens in a group happens
       below it, so the stops behind it are still there.
    3. **The text** — a body is rendered if and only if each field in it can be encoded when its turn comes, and the
       text is what all the bytes say (`render_body`).  Its stops are the same afterwards (`Ready`).
-/
import Stencil.Proofs.Field.Writing
import Stencil.Proofs.Walk.Stops
import Stencil.Walk.Pull

set_option autoImplicit false

namespace Stencil.Walk

open Stencil.Tree (Under)
open Stencil.Meaning (Beneath)

variable {t t' : Tree} {node n q : NodeId} {key : String} {before ns : List NodeId} {p : Position}
  {scan ps qs all : List Position} {k l m : Nat} {o : Options} {f : Frame} {s s' : Sink} {w w' : Walk} {e : Error}
  {out : List Bytes}

/-! ## One stop -/

/-- The tree when a walk has gone into a group: a node that stands for nothing is behind the group if nothing was. -/
def entered (t : Tree) (g : NodeId) : Tree :=
  match t.nextSibling? g with
  | some _ => t
  | none =>
    let (marker, t₁) := t.addElement none "nop"
    match t₁.insertAfter g marker with
    | .ok t' => t'
    | .error _ => t

/-- What happens at a stop: a field is filled and written, and a group is gone into. -/
def stopAt (o : Options) (f : Frame) (p : Position) (s : Sink) : Action Walk Sink := do
  if (← get).space.tree.name p.node = "item" then
    fillItem f p.key p.node
    writeText o p.node s
  else
    modifyTree fun t => entered t p.node
    return s

/-- What happens at stops, one behind the other. -/
def stopAll (o : Options) (f : Frame) : List Position → Sink → Action Walk Sink
  | [], s => pure s
  | p :: ps, s => stopAt o f p s >>= stopAll o f ps

theorem stopAll_append : stopAll o f (ps ++ qs) s = stopAll o f ps s >>= stopAll o f qs := by
  induction ps generalizing s with
  | nil => rfl
  | cons p ps ih =>
    rw [List.cons_append, stopAll, stopAll, bind_assoc]
    exact Action.bind_ext fun s => ih

theorem stopAt_field (hname : w.space.tree.name p.node = "item") :
    stopAt o f p s w = (fillItem f p.key p.node >>= fun _ => writeText o p.node s) w := by
  rw [stopAt, Action.get_bind, if_pos hname]

theorem stopAt_group (hname : w.space.tree.name p.node = "items") :
    stopAt o f p s w = .ok s { w with space := { w.space with tree := entered w.space.tree p.node } } := by
  rw [stopAt, Action.get_bind, if_neg (by rw [hname]; decide)]
  rfl

/-- The positions at which a run of siblings starts: the first sibling, if there is one. -/
def startOf (key : String) (ns : List NodeId) : List Position := (ns.head?.map fun n => ⟨key, n⟩).toList

theorem behind_eq (hwf : t.WellFormed) (hs : t.children q = before ++ n :: ns) :
    behind t scan ⟨key, n⟩ = startOf key ns ++ scan := by
  unfold behind startOf
  rw [hwf.nextSibling?_of_split hs]
  cases ns <;> rfl

/-- Going into a group that is not empty: next come the nodes in it, and then its next sibling or a new node. -/
theorem descend_group (key : String) (scan : List Position) (hwf : t.WellFormed)
    (hs : t.children q = before ++ n :: ns) (hsome : t.children n ≠ []) :
    ∃ ns', descend t scan key n
        = .ok (entered t n, startOf (t.keyPath key n) (t.children n) ++ (startOf key ns' ++ scan))
      ∧ (ns ≠ [] ∧ ns' = ns ∧ entered t n = t
        ∨ ns = [] ∧ ∃ marker, ns' = [marker] ∧ Marked t q marker (entered t n)) := by
  have hp : t.parent? n = some q := hwf.mem_children.mp (by rw [hs]; simp)
  have hnext := hwf.nextSibling?_of_split hs
  obtain ⟨first, cs, hfirst⟩ := List.exists_cons_of_ne_nil hsome
  have hf : t.firstChild? n = some first := by rw [Tree.firstChild?, hfirst]; rfl
  unfold descend entered
  cases ns with
  | cons next ns =>
    simp only [hf, hnext, List.head?_cons, hp, hfirst]
    exact ⟨next :: ns, rfl, .inl ⟨List.cons_ne_nil _ _, rfl, trivial⟩⟩
  | nil =>
    cases ha : t.addElement none "nop" with
    | mk marker t₁ =>
      obtain ⟨t₂, hi, hm⟩ := exists_marked hwf hp hnext ha
      simp only [hf, hnext, List.head?_nil, hp, hi, hfirst]
      exact ⟨[marker], rfl, .inr ⟨trivial, marker, rfl, hm⟩⟩

/-! ## The run -/

theorem tagOf_bind {α : Type} {tag : Tag} {g : Tag → Action Walk α} (h : Tag.ofName? (t.name n) = some tag) :
    (Action.ofExcept (tagOf t n) >>= g) w = g tag w := by
  rw [tagOf, h]
  rfl

/-- A field is visited: that is a stop, and the siblings behind it come next. -/
theorem renderNode_field (o : Options) (f : Frame) (s : Sink) (scan : List Position)
    (hname : w.space.tree.name p.node = "item") :
    renderNode o f s scan p w = match stopAt o f p s w with
      | .ok s' w' => .ok (s', behind w'.space.tree scan p) w'
      | .error e w' => .error e w' := by
  rw [renderNode, Action.get_bind, tagOf_bind (by rw [hname]; rfl), stopAt_field hname]
  dsimp only
  rw [← bind_assoc]
  cases hx : (fillItem f p.key p.node >>= fun _ => writeText o p.node s) w with
  | ok s' w' => rw [Action.bind_of_ok hx]; rfl
  | error e w' => rw [Action.bind_of_error hx]

/-- What is passed leaves everything as it is. -/
theorem renderNode_pass
    (hvoid : w.space.tree.name p.node = "nop"
      ∨ w.space.tree.name p.node = "items" ∧ w.space.tree.children p.node = []) :
    renderNode o f s scan p w = .ok (s, behind w.space.tree scan p) w := by
  rw [renderNode, Action.get_bind]
  rcases hvoid with hname | ⟨hname, hempty⟩
  · rw [tagOf_bind (by rw [hname]; rfl)]
    rfl
  · rw [tagOf_bind (by rw [hname]; rfl), Tree.hasChildren, hempty]
    rfl

/-- A group that is not empty is visited: that is a stop, and the nodes in it come next. -/
theorem renderNode_group {scan' : List Position} (hname : w.space.tree.name p.node = "items")
    (hsome : w.space.tree.children p.node ≠ [])
    (hd : descend w.space.tree scan p.key p.node = .ok (entered w.space.tree p.node, scan')) :
    renderNode o f s scan p w
      = .ok (s, scan') { w with space := { w.space with tree := entered w.space.tree p.node } } := by
  have hc : w.space.tree.hasChildren p.node = true := by
    rw [Tree.hasChildren, Bool.not_eq_true', List.isEmpty_eq_false_iff]
    exact hsome
  rw [renderNode, Action.get_bind, tagOf_bind (by rw [hname]; rfl)]
  dsimp only
  rw [if_pos hc, hd]
  rfl

theorem renderFrom_of_ok {w₁ : Walk} {scan' : List Position} (h : renderNode o f s scan p w = .ok (s', scan') w₁) :
    renderFrom o f (m + 1) s (p :: scan) w = renderFrom o f m s' scan' w₁ := by
  rw [renderFrom, Action.bind_of_ok h]

theorem renderFrom_of_error (h : renderNode o f s scan p w = .error e w') :
    renderFrom o f (m + 1) s (p :: scan) w = .error e w' := by
  rw [renderFrom, Action.bind_of_error h]

/-- Siblings behind a node have nothing to do with what is below it. -/
theorem apart_siblings (hwf : t.WellFormed) (hs : t.children q = before ++ n :: ns) :
    ∀ m ∈ ns, t.Live m ∧ ¬ Under t n m ∧ ¬ Under t m n := by
  intro m hm
  have hpn : t.parent? n = some q := hwf.mem_children.mp (by rw [hs]; simp)
  have hpm : t.parent? m = some q := hwf.mem_children.mp (by rw [hs]; simp [hm])
  have hne : n ≠ m := by
    rintro rfl
    have hnodup := hwf.children_nodup q
    rw [hs] at hnodup
    exact (List.nodup_cons.mp (List.nodup_append.mp hnodup).2.1).1 hm
  exact ⟨(hwf.live_of_parent hpm).1, fun hu => hne (hwf.siblings_disjoint hpn hpm hu .self),
    fun hu => hne (hwf.siblings_disjoint hpn hpm .self hu)⟩

/-- What happens below a child leaves the list of children as it is. -/
theorem children_of_beneath (hwf : t.WellFormed) (hp : t.parent? n = some q) (hb : Beneath t n t') :
    t'.children q = t.children q :=
  Meaning.children_of_outline (hb.outline q (hwf.live_of_parent hp).2 (hwf.not_under_parent hp))

/-- What is to come when a walk has gone into a group: the nodes in it are as they were, and the stops behind it are
    still there.  Behind the group there is one node at least. -/
theorem entered_stops (scan : List Position) (hwf : t.WellFormed) (hs : t.children q = before ++ n :: ns)
    (hsome : t.children n ≠ []) (inner : Stops t (t.keyPath key n) (t.children n) qs l) (rest : Stops t key ns ps k) :
    ∃ ns', descend t scan key n
        = .ok (entered t n, startOf (t.keyPath key n) (t.children n) ++ (startOf key ns' ++ scan))
      ∧ Beneath t q (entered t n) ∧ (entered t n).children q = before ++ n :: ns'
      ∧ (entered t n).children n = t.children n ∧ Stops (entered t n) (t.keyPath key n) (t.children n) qs l
      ∧ Stops (entered t n) key ns' ps (max 1 k) := by
  obtain ⟨ns', hd, ⟨hne, rfl, he⟩ | ⟨rfl, marker, rfl, hm⟩⟩ := descend_group key scan hwf hs hsome
  · refine ⟨ns', hd, ?_⟩
    rw [he]
    exact ⟨.refl hwf q, hs, rfl, inner, by rwa [Nat.max_eq_right (rest.pos hne)]⟩
  · have hp : t.parent? n = some q := hwf.mem_children.mp (by rw [hs]; simp)
    obtain ⟨hln, hlq⟩ := hwf.live_of_parent hp
    -- the new node is a child of the parent, and the parent is not in the group
    have hnode : ∀ x, t.Live x → Under t n x → (entered t n).node x = t.node x := fun x hx hu =>
      hm.node x hx (by rintro rfl; exact hwf.not_under_parent hp hu)
    have hinner : Stops (entered t n) (t.keyPath key n) (t.children n) qs l := by
      refine inner.congr (P := fun x => t.Live x ∧ Under t n x) (fun x hx => ?_) fun c hc => ?_
      · have hx' := hnode x hx.1 hx.2
        refine ⟨congrArg Node.name hx', congrArg Node.attrs hx', fun _ => ⟨congrArg Node.children hx', fun c hc => ?_⟩⟩
        have hpc := hwf.mem_children.mp hc
        exact ⟨(hwf.live_of_parent hpc).1, .child hpc hx.2⟩
      · have hpc := hwf.mem_children.mp hc
        exact ⟨(hwf.live_of_parent hpc).1, Tree.under_of_parent hpc⟩
    cases rest
    exact ⟨[marker], hd, .of_added hlq hm, by rw [hm.children, hs]; simp, congrArg Node.children (hnode n hln .self),
      hinner, .pass (.inl hm.name_self) .nil⟩

theorem stopAll_cons_of_ok {w₁ : Walk} {s₁ : Sink} (h : stopAt o f p s w = .ok s₁ w₁) :
    stopAll o f (p :: ps) s w = stopAll o f ps s₁ w₁ := by
  rw [stopAll, Action.bind_of_ok h]

theorem beneath_stopAt (hwf : w.space.tree.WellFormed) (hp : w.space.tree.parent? p.node = some q)
    (hname : w.space.tree.name p.node = "item") (h : stopAt o f p s w = .ok s' w') :
    Beneath w.space.tree p.node w'.space.tree := by
  rw [stopAt_field hname] at h
  obtain ⟨_, w₁, h₁, h₂⟩ := Action.bind_eq_ok.mp h
  exact Meaning.beneath_renderItem hwf hp h₁ h₂

/-- A walk along siblings, whatever is on the stack below, is what happens at its stops; and all that happens below
    the parent. -/
theorem renderFrom_stops (left : Nat) (s : Sink) (scan : List Position) (hwf : w.space.tree.WellFormed)
    (hs : w.space.tree.children q = before ++ ns) (h : Stops w.space.tree key ns ps k) :
    renderFrom o f (k + left) s (startOf key ns ++ scan) w
        = (stopAll o f ps s >>= fun s' => renderFrom o f left s' scan) w
      ∧ ∀ s' w', stopAll o f ps s w = .ok s' w' → Beneath w.space.tree q w'.space.tree := by
  induction k using Nat.strongRecOn generalizing w q before ns key ps left s scan with
  | ind k ih =>
    cases h with
    | nil =>
      refine ⟨by rw [Nat.zero_add]; rfl, fun s' w' hok => ?_⟩
      obtain ⟨-, rfl⟩ := Action.pure_eq_ok.mp hok
      exact .refl hwf q
    | @pass _ n ns ps k void rest =>
      have hs' : w.space.tree.children q = (before ++ [n]) ++ ns := by rw [hs, List.append_assoc]; rfl
      obtain ⟨heq, hbeneath⟩ := ih k (Nat.lt_succ_self k) left s scan hwf hs' rest
      refine ⟨?_, hbeneath⟩
      rw [Nat.add_right_comm, ← heq, ← behind_eq hwf hs]
      exact renderFrom_of_ok (renderNode_pass void)
    | @field _ n ns ps k name plain rest =>
      have hp : w.space.tree.parent? n = some q := hwf.mem_children.mp (by rw [hs]; simp)
      have hvisit := renderNode_field o f s scan (p := ⟨key, n⟩) name
      rw [Nat.add_right_comm]
      cases hstop : stopAt o f ⟨key, n⟩ s w with
      | error e w₁ =>
        rw [hstop] at hvisit
        have hall : stopAll o f (⟨key, n⟩ :: ps) s w = .error e w₁ := Action.bind_of_error hstop
        refine ⟨?_, fun s' w' hok => by rw [hall] at hok; cases hok⟩
        rw [Action.bind_of_error hall]
        exact renderFrom_of_error hvisit
      | ok s₁ w₁ =>
        rw [hstop] at hvisit
        have hb : Beneath w.space.tree n w₁.space.tree := beneath_stopAt hwf hp name hstop
        have hs₁ : w₁.space.tree.children q = before ++ n :: ns := (children_of_beneath hwf hp hb).trans hs
        have hs₁' : w₁.space.tree.children q = (before ++ [n]) ++ ns := by rw [hs₁, List.append_assoc]; rfl
        have hrest := rest.apart hwf hb (apart_siblings hwf hs)
        obtain ⟨heq, hbeneath⟩ := ih k (Nat.lt_succ_self k) left s₁ scan hb.wellFormed hs₁' hrest
        refine ⟨?_, fun s' w' hok => ?_⟩
        · rw [stopAll, bind_assoc, Action.bind_of_ok hstop, ← heq, ← behind_eq hb.wellFormed hs₁]
          exact renderFrom_of_ok hvisit
        · rw [stopAll_cons_of_ok hstop] at hok
          exact (hb.up hwf hp).trans hwf (hbeneath s' w' hok)
    | @group _ n ns ps qs k l name hsome inner rest =>
      obtain ⟨ns', hd, hb, hs₁, hcs, hinner, hrest⟩ := entered_stops scan hwf hs hsome inner rest
      have hstop := stopAt_group (o := o) (f := f) (s := s) (p := ⟨key, n⟩) name
      have hvisit := renderNode_group (o := o) (f := f) (s := s) (p := ⟨key, n⟩) name hsome hd
      generalize hw₁ : ({ w with space := { w.space with tree := entered w.space.tree n } } : Walk) = w₁ at hstop hvisit
      have htree : entered w.space.tree n = w₁.space.tree := by rw [← hw₁]
      rw [htree] at hb hs₁ hcs hinner hrest
      have hwf₁ := hb.wellFormed
      have hp : w₁.space.tree.parent? n = some q := hwf₁.mem_children.mp (by rw [hs₁]; simp)
      -- first the nodes in the group, with the position behind the group on the stack
      have hcs' : w₁.space.tree.children n = [] ++ w.space.tree.children n := hcs
      obtain ⟨heq, hbelow⟩ := ih l (by omega) (max 1 k + left) s (startOf key ns' ++ scan) hwf₁ hcs' hinner
      -- then the siblings behind it, which are where they were
      have hbehind : ∀ {s₂ w₂}, stopAll o f qs s w₁ = .ok s₂ w₂ →
          renderFrom o f (max 1 k + left) s₂ (startOf key ns' ++ scan) w₂
              = (stopAll o f ps s₂ >>= fun s' => renderFrom o f left s' scan) w₂
            ∧ ∀ s' w', stopAll o f ps s₂ w₂ = .ok s' w' → Beneath w₁.space.tree q w'.space.tree := by
        intro s₂ w₂ hok
        have hb₂ := hbelow s₂ w₂ hok
        have hs₂ : w₂.space.tree.children q = (before ++ [n]) ++ ns' := by
          rw [children_of_beneath hwf₁ hp hb₂, hs₁, List.append_assoc]
          rfl
        have hvisited := inner.pos hsome
        obtain ⟨heq₂, hbelow₂⟩ := ih (max 1 k) (by omega) left s₂ scan hb₂.wellFormed hs₂
          (hrest.apart hwf₁ hb₂ (apart_siblings hwf₁ hs₁))
        exact ⟨heq₂, fun s' w' hok' => (hb₂.up hwf₁ hp).trans hwf₁ (hbelow₂ s' w' hok')⟩
      have hfuel : l + max 1 k + 1 + left = l + (max 1 k + left) + 1 := by omega
      refine ⟨?_, fun s' w' hok => ?_⟩
      · rw [hfuel, stopAll, bind_assoc, Action.bind_of_ok hstop, stopAll_append, bind_assoc]
        refine (renderFrom_of_ok hvisit).trans (heq.trans (Action.bind_congr fun s₂ w₂ hok => ?_))
        exact (hbehind hok).1
      · rw [stopAll_cons_of_ok hstop, stopAll_append] at hok
        obtain ⟨s₂, w₂, hqs, hps⟩ := Action.bind_eq_ok.mp hok
        exact hb.trans hwf ((hbehind hqs).2 s' w' hps)

/-! ## The text -/

/-- What a field works on when it has been filled from the records, under its key. -/
def filled (f : Frame) (p : Position) (w : Walk) : Workspace :=
  { w.space with
    tree := putValue w.space.tree p.node (w.recordValue f (w.space.tree.keyPath p.key p.node) p.node) }

/-- The fields among the stops, each filled from the records when its turn comes, are encoded as `out`. -/
inductive Encoded (o : Options) (f : Frame) : List Position → Walk → List Bytes → Walk → Prop
  | done {w : Walk} : Encoded o f [] w [] w
  | field {p : Position} {ps : List Position} {w w' : Walk} {l : Field.Layout} {space : Workspace} {out : List Bytes}
      (name : w.space.tree.name p.node = "item")
      (encodes : Field.prepare o w.files.read p.node none (filled f p w) = .ok ⟨none, l⟩ space)
      (rest : Encoded o f ps { w with space := space.keepWidth p.node l.recorded } out w') :
      Encoded o f (p :: ps) w (l.bytes :: out) w'
  | group {p : Position} {ps : List Position} {w w' : Walk} {out : List Bytes}
      (name : w.space.tree.name p.node = "items")
      (rest : Encoded o f ps { w with space := { w.space with tree := entered w.space.tree p.node } } out w') :
      Encoded o f (p :: ps) w out w'

/-- One of the fields among the stops is the first that cannot be encoded when its turn comes. -/
inductive Refused (o : Options) (f : Frame) : List Position → Walk → Error → Walk → Prop
  | here {p : Position} {ps : List Position} {w : Walk} {space : Workspace} {e : Error}
      (name : w.space.tree.name p.node = "item")
      (refuses : Field.prepare o w.files.read p.node none (filled f p w) = .error e space) :
      Refused o f (p :: ps) w (e.locate (space.tree.describe p.node)) { w with space }
  | field {p : Position} {ps : List Position} {w w' : Walk} {l : Field.Layout} {space : Workspace} {e : Error}
      (name : w.space.tree.name p.node = "item")
      (encodes : Field.prepare o w.files.read p.node none (filled f p w) = .ok ⟨none, l⟩ space)
      (rest : Refused o f ps { w with space := space.keepWidth p.node l.recorded } e w') : Refused o f (p :: ps) w e w'
  | group {p : Position} {ps : List Position} {w w' : Walk} {e : Error} (name : w.space.tree.name p.node = "items")
      (rest : Refused o f ps { w with space := { w.space with tree := entered w.space.tree p.node } } e w') :
      Refused o f (p :: ps) w e w'

/-- A text sink that has only been written at its end. -/
def Collecting (s : Sink) : Prop := s.target = .memory ∧ s.stream.AtEnd

theorem reader_of_memory (h : s.target = .memory) (files : Files) : s.reader files = files.read := by
  unfold Sink.reader
  rw [h]

theorem fillItem_eq : fillItem f p.key p.node w = .ok () { w with space := filled f p w } := rfl

theorem writeText_eq : writeText o n s w = match Job.write o w.files n none ⟨w.space, s⟩ with
    | .ok _ j => .ok j.sink { w with space := j.space }
    | .error e j => .error e { w with space := j.space } := rfl

/-- A field that is encoded is written. -/
theorem stopAt_of_encodes {written : Field.Written} {space : Workspace} (hs : Collecting s)
    (hname : w.space.tree.name p.node = "item")
    (h : Field.prepare o w.files.read p.node none (filled f p w) = .ok written space) :
    stopAt o f p s w = .ok (s.emit written.place written.layout.bytes)
      { w with space := space.keepWidth p.node written.layout.recorded } := by
  rw [← reader_of_memory hs.1] at h
  have hwrite : Job.write o w.files p.node none ⟨filled f p w, s⟩
      = .ok () ⟨space.keepWidth p.node written.layout.recorded, s.emit written.place written.layout.bytes⟩ := by
    rw [Job.write, Action.locating, Action.get_bind,
      Action.bind_of_ok (Job.onSpace_of_ok (j := ⟨filled f p w, s⟩) h), Job.modifySink, Action.modify_bind,
      Job.onSpace_of_ok (Field.record_eq written.layout)]
  rw [stopAt_field hname, Action.bind_of_ok fillItem_eq, writeText_eq, hwrite]

/-- A field that is refused leaves a text sink without its bytes. -/
theorem stopAt_of_refuses {space : Workspace} (hs : Collecting s) (hname : w.space.tree.name p.node = "item")
    (h : Field.prepare o w.files.read p.node none (filled f p w) = .error e space) :
    stopAt o f p s w = .error (e.locate (space.tree.describe p.node)) { w with space } := by
  rw [← reader_of_memory hs.1] at h
  have hwrite : Job.write o w.files p.node none ⟨filled f p w, s⟩
      = .error (e.locate (space.tree.describe p.node)) ⟨space, s⟩ := by
    rw [Job.write, Action.locating, Action.get_bind,
      Action.bind_of_error (Job.onSpace_of_error (j := ⟨filled f p w, s⟩) h)]
  rw [stopAt_field hname, Action.bind_of_ok fillItem_eq, writeText_eq, hwrite]

theorem Collecting.emit (h : Collecting s) (bs : Bytes) :
    Collecting (s.emit none bs) ∧ (s.emit none bs).toBytes = s.toBytes ++ bs := by
  obtain ⟨hmemory, hend⟩ := h
  refine ⟨⟨?_, hend.emit none bs⟩, (hend.write bs).1⟩
  unfold Sink.emit
  rw [hmemory]

/-- Fields that are encoded are written, and a text sink gets their bytes, one behind the other. -/
theorem Encoded.stopAll_eq (h : Encoded o f ps w out w') (hs : Collecting s) :
    ∃ s', stopAll o f ps s w = .ok s' w' ∧ s'.toBytes = s.toBytes ++ out.flatten := by
  induction h generalizing s with
  | done => exact ⟨s, rfl, (List.append_nil _).symm⟩
  | field name encodes rest ih =>
    obtain ⟨hcollecting, hbytes⟩ := hs.emit _
    obtain ⟨s', hok, hout⟩ := ih hcollecting
    refine ⟨s', ?_, ?_⟩
    · rw [stopAll_cons_of_ok (stopAt_of_encodes hs name encodes)]
      exact hok
    · rw [hout, hbytes, List.flatten_cons, List.append_assoc]
  | group name rest ih =>
    obtain ⟨s', hok, hout⟩ := ih hs
    exact ⟨s', by rw [stopAll_cons_of_ok (stopAt_group name)]; exact hok, hout⟩

theorem Refused.stopAll_eq (h : Refused o f ps w e w') (hs : Collecting s) : stopAll o f ps s w = .error e w' := by
  induction h generalizing s with
  | here name refuses => exact Action.bind_of_error (stopAt_of_refuses hs name refuses)
  | field name encodes rest ih =>
    rw [stopAll_cons_of_ok (stopAt_of_encodes hs name encodes)]
    exact ih (hs.emit _).1
  | group name rest ih =>
    rw [stopAll_cons_of_ok (stopAt_group name)]
    exact ih hs

/-- The body of a node has some stops. -/
structure Ready (t : Tree) (node : NodeId) (ps : List Position) : Prop where
  wellFormed : t.WellFormed
  stops : ∃ k, Stops t (bodyKey t node) (t.children node) ps k

namespace Ready

variable (h : Ready t node all) (hp : p ∈ all)
include h hp

theorem isStop : IsStop t p.node ∧ ∃ q, t.parent? p.node = some q ∧ Enclosed t node (bodyKey t node) q p.key := by
  obtain ⟨k, hstops⟩ := h.stops
  exact (hstops.mem_iff h.wellFormed).mp hp

/-- The node of a stop stands below the node of the body. -/
theorem under : Under t node p.node ∧ p.node ≠ node := by
  obtain ⟨k, hstops⟩ := h.stops
  have hmem := (hstops.sublist h.wellFormed).subset (List.mem_map_of_mem hp)
  rw [← h.wellFormed.descendants_eq] at hmem
  exact h.wellFormed.mem_descendants.mp hmem

theorem plain (hname : t.name p.node = "item") : t.attr? p.node "offset" = none := by
  obtain ⟨k, hstops⟩ := h.stops
  obtain ⟨-, q, hq, henc⟩ := h.isStop hp
  rcases hstops.isBody h.wellFormed q p.key p.node henc hq with ⟨-, hplain⟩ | hitems | hnop
  · exact hplain
  · exact absurd (hname.symm.trans hitems) (by decide)
  · exact absurd (hname.symm.trans hnop) (by decide)

/-- What happens below a field changes no stop. -/
theorem of_field (hname : t.name p.node = "item") (hb : Beneath t p.node t') : Ready t' node all := by
  obtain ⟨k, hstops⟩ := h.stops
  obtain ⟨hu, hne⟩ := h.under hp
  obtain ⟨-, q, hq, -⟩ := h.isStop hp
  have hwf := h.wellFormed
  have hlive := hwf.live_of_under' (hwf.live_of_parent hq).1 hu
  have ho := hb.outline node hlive fun hu' => hne (hwf.under_antisymm hu' hu)
  have hkey : bodyKey t' node = bodyKey t node := by
    unfold bodyKey Tree.attr?
    rw [Meaning.attrs_of_outline ho]
  refine ⟨hb.wellFormed, k, ?_⟩
  rw [hkey, Meaning.children_of_outline ho]
  refine hstops.below_field hwf hname hb fun n hn => ?_
  exact Beneath.child hwf (hwf.mem_children.mp hn) fun hu' => hne (hwf.under_antisymm hu' hu)

/-- Going into a group changes no stop. -/
theorem of_group (hname : t.name p.node = "items") : Ready (entered t p.node) node all := by
  obtain ⟨k, hstops⟩ := h.stops
  obtain ⟨hstop, q, hq, -⟩ := h.isStop hp
  have hwf := h.wellFormed
  have hsome : t.children p.node ≠ [] := by
    rcases hstop with hitem | ⟨-, hsome⟩
    · exact absurd (hname.symm.trans hitem) (by decide)
    · exact hsome
  obtain ⟨before, after, hs⟩ := hwf.exists_split hq
  obtain ⟨-, -, ⟨-, -, he⟩ | ⟨-, marker, -, hm⟩⟩ := descend_group "" [] hwf hs hsome
  · rw [he]
    exact h
  · have hlive := hwf.live_of_under' (hwf.live_of_parent hq).1 (h.under hp).1
    have hkey : bodyKey (entered t p.node) node = bodyKey t node := by
      unfold bodyKey Tree.attr?
      rw [Tree.attrs_eq_of_content (hm.content node hlive)]
    obtain ⟨k', hmarked⟩ := hstops.marked hwf hm (by rw [hs]; simp) fun n hn =>
      (hwf.live_of_parent (hwf.mem_children.mp hn)).1
    refine ⟨hm.wellFormed, ?_⟩
    rw [hkey]
    by_cases hnode : node = q
    · rw [hnode, hm.children, ← hnode]
      exact hmarked.append_void hm.name_self
    · refine ⟨k', ?_⟩
      rw [Tree.children, hm.node node hlive hnode]
      exact hmarked

end Ready

/-- A field that states no place gets none. -/
theorem place_of_prepare {read : FileReader} {space space' : Workspace} {written : Field.Written}
    (hplain : space.tree.attr? n "offset" = none) (h : Field.prepare o read n none space = .ok written space') :
    written.place = none := by
  rcases Field.unwritable_or_workedOut o read n none space with ⟨e, w, hu⟩ | ⟨text, w, spot, l, hw⟩
  · rw [Field.prepare_of_unwritable hu] at h
    cases h
  · rw [Field.prepare_of_workedOut hw] at h
    cases h
    exact hw.spot_eq_none hplain

/-- A field is filled and encoded: all that happens is below it. -/
theorem beneath_encoded {written : Field.Written} {space : Workspace} (hwf : w.space.tree.WellFormed)
    (hl : w.space.tree.Live p.node)
    (h : Field.prepare o w.files.read p.node none (filled f p w) = .ok written space) (recorded : Option Int) :
    Beneath w.space.tree p.node (space.keepWidth p.node recorded).tree := by
  have hfilled : Beneath w.space.tree p.node (filled f p w).tree := Meaning.beneath_putValue hwf hl _
  have hprepared := hfilled.trans hwf (Meaning.beneath_prepare hfilled.wellFormed h)
  cases recorded with
  | none => exact hprepared
  | some k =>
    have hkept : Beneath space.tree p.node (space.keepWidth p.node (some k)).tree :=
      Beneath.modifyComputed (g := fun c => { c with resultBytes := some k }) hprepared.wellFormed fun _ => rfl
    exact hprepared.trans hwf hkept

/-- The fields among the stops of a body are encoded, or one of them is refused. -/
theorem encoded_or_refused (h : Ready w.space.tree node all) (hps : ∀ p ∈ ps, p ∈ all) :
    (∃ out w', Encoded o f ps w out w' ∧ Ready w'.space.tree node all) ∨ ∃ e w', Refused o f ps w e w' := by
  induction ps generalizing w with
  | nil => exact .inl ⟨[], w, .done, h⟩
  | cons p ps ih =>
    have hp := hps p List.mem_cons_self
    have hps' : ∀ p ∈ ps, p ∈ all := fun p' hp' => hps p' (List.mem_cons_of_mem p hp')
    rcases (h.isStop hp).1 with hname | ⟨hname, -⟩
    · obtain ⟨-, q, hq, -⟩ := h.isStop hp
      have hl := (h.wellFormed.live_of_parent hq).1
      cases hprepare : Field.prepare o w.files.read p.node none (filled f p w) with
      | error e space => exact .inr ⟨_, _, .here hname hprepare⟩
      | ok written space =>
        have hfilled : Beneath w.space.tree p.node (filled f p w).tree := Meaning.beneath_putValue h.wellFormed hl _
        have hplain : (filled f p w).tree.attr? p.node "offset" = none := by
          unfold Tree.attr?
          rw [hfilled.attrs]
          exact h.plain hp hname
        obtain ⟨place, l⟩ := written
        obtain rfl : place = none := place_of_prepare hplain hprepare
        have hb := beneath_encoded h.wellFormed hl hprepare l.recorded
        rcases ih (w := { w with space := space.keepWidth p.node l.recorded }) (h.of_field hp hname hb) hps' with
          ⟨out, w', henc, hready⟩ | ⟨e, w', href⟩
        · exact .inl ⟨_, w', .field hname hprepare henc, hready⟩
        · exact .inr ⟨e, w', .field hname hprepare href⟩
    · rcases ih (w := { w with space := { w.space with tree := entered w.space.tree p.node } })
        (h.of_group hp hname) hps' with ⟨out, w', henc, hready⟩ | ⟨e, w', href⟩
      · exact .inl ⟨out, w', .group hname henc, hready⟩
      · exact .inr ⟨e, w', .group hname href⟩

/-- Rendering a body is what happens at its stops. -/
theorem render_eq (h : Ready w.space.tree node ps) :
    render o f node w = (stopAll o f ps TextSink.empty >>= fun s => pure (TextSink.contents s)) w := by
  obtain ⟨k, hstops⟩ := h.stops
  have hwf := h.wellFormed
  have hle : k ≤ 2 * (w.space.tree.descendants node).length + 1 := by
    have hle := hstops.le hwf
    rw [← hwf.descendants_eq] at hle
    exact Nat.le_succ_of_le hle
  obtain ⟨left, hleft⟩ := Nat.exists_eq_add_of_le hle
  have hscan : (match w.space.tree.firstChild? node with
      | some first => [(⟨bodyKey w.space.tree node, first⟩ : Position)]
      | none => []) = startOf (bodyKey w.space.tree node) (w.space.tree.children node) ++ [] := by
    rw [List.append_nil, startOf, ← Tree.firstChild?]
    cases w.space.tree.firstChild? node <;> rfl
  have hends : (fun s => renderFrom o f left s []) = (pure : Sink → Action Walk Sink) := by
    funext s
    cases left <;> rfl
  have hrun := (renderFrom_stops (o := o) (f := f) left TextSink.empty [] hwf
    (show w.space.tree.children node = [] ++ w.space.tree.children node from rfl) hstops).1
  rw [hends, bind_pure, ← hleft, ← hscan] at hrun
  show (renderFrom o f (2 * (w.space.tree.descendants node).length + 1) TextSink.empty _ >>= _) w = _
  cases hall : stopAll o f ps TextSink.empty w with
  | ok s w' =>
    rw [Action.bind_of_ok hall]
    exact Action.bind_of_ok (hrun.trans hall)
  | error e w' =>
    rw [Action.bind_of_error hall]
    exact Action.bind_of_error (hrun.trans hall)

theorem collecting_empty : Collecting TextSink.empty := ⟨rfl, rfl⟩

/-- A body is rendered if its fields are encoded, and the text is what all their bytes say. -/
theorem render_of_encoded (h : Ready w.space.tree node ps) (henc : Encoded o f ps w out w') :
    render o f node w = .ok (Text.decodeUtf8 out.flatten) w' := by
  obtain ⟨s', hall, hbytes⟩ := henc.stopAll_eq collecting_empty
  rw [render_eq h, Action.bind_of_ok hall, TextSink.contents, hbytes]
  rfl

theorem render_of_refused (h : Ready w.space.tree node ps) (href : Refused o f ps w e w') :
    render o f node w = .error e w' := by
  rw [render_eq h, Action.bind_of_error (href.stopAll_eq collecting_empty)]

/-- What becomes of rendering a body. -/
theorem render_iff (h : Ready w.space.tree node ps) :
    (∀ text w', render o f node w = .ok text w'
        ↔ ∃ out, Encoded o f ps w out w' ∧ text = Text.decodeUtf8 out.flatten)
      ∧ ∀ e w', render o f node w = .error e w' ↔ Refused o f ps w e w' := by
  rcases encoded_or_refused (o := o) (f := f) h fun p hp => hp with ⟨out, w₁, henc, -⟩ | ⟨e, w₁, href⟩
  · have hok := render_of_encoded h henc
    refine ⟨fun text w' => ⟨fun hr => ?_, ?_⟩, fun e' w' => ⟨fun hr => ?_, fun href => ?_⟩⟩
    · rw [hok] at hr
      cases hr
      exact ⟨out, henc, rfl⟩
    · rintro ⟨out', henc', rfl⟩
      exact render_of_encoded h henc'
    · rw [hok] at hr
      cases hr
    · exact render_of_refused h href
  · have herror := render_of_refused h href
    refine ⟨fun text w' => ⟨fun hr => ?_, ?_⟩, fun e' w' => ⟨fun hr => ?_, fun href' => ?_⟩⟩
    · rw [herror] at hr
      cases hr
    · rintro ⟨out', henc', rfl⟩
      exact render_of_encoded h henc'
    · rw [herror] at hr
      cases hr
      exact href
    · exact render_of_refused h href'

/-- The stops of a body are the same when it has been rendered. -/
theorem Ready.render {text : String} (h : Ready w.space.tree node ps) (hok : Walk.render o f node w = .ok text w') :
    Ready w'.space.tree node ps := by
  rcases encoded_or_refused (o := o) (f := f) h fun p hp => hp with ⟨out, w₁, henc, hready⟩ | ⟨e, w₁, href⟩
  · rw [render_of_encoded h henc] at hok
    cases hok
    exact hready
  · rw [render_of_refused h href] at hok
    cases hok

/-- The body of a `writer` is rendered completely.  A walk through it stops at each field and at each group that is
    not empty, once and in document order, under the key of the `writer` extended by the names of the groups around.
    It succeeds if and only if each field, filled from the records under its key when its turn comes, can be encoded;
    the text is what the bytes of all fields say.  Otherwise it fails with the error of the first field that cannot.
    Rendering the body again, whatever else has changed, stops at the same nodes in the same order, also if nodes
    have been put behind groups. -/
theorem render_body (hwf : w.space.tree.WellFormed) (hbody : IsBody w.space.tree node) :
    ∃ ps : List Position,
      ((ps.map Position.node).Sublist (w.space.tree.descendants node) ∧ (ps.map Position.node).Nodup)
        ∧ (∀ p, p ∈ ps ↔ IsStop w.space.tree p.node ∧ ∃ q, w.space.tree.parent? p.node = some q
          ∧ Enclosed w.space.tree node (bodyKey w.space.tree node) q p.key)
        ∧ (∀ text w', render o f node w = .ok text w'
          ↔ ∃ out, Encoded o f ps w out w' ∧ text = Text.decodeUtf8 out.flatten)
        ∧ (∀ e w', render o f node w = .error e w' ↔ Refused o f ps w e w')
        ∧ ∀ text w', render o f node w = .ok text w' → ∀ v : Walk, v.space.tree = w'.space.tree →
          IsBody v.space.tree node
            ∧ (∀ text' v', render o f node v = .ok text' v'
              ↔ ∃ out, Encoded o f ps v out v' ∧ text' = Text.decodeUtf8 out.flatten)
            ∧ ∀ e v', render o f node v = .error e v' ↔ Refused o f ps v e v' := by
  obtain ⟨ps, k, hstops⟩ := exists_stops hwf hbody .body
  have hready : Ready w.space.tree node ps := ⟨hwf, k, hstops⟩
  have hsublist := hstops.sublist hwf
  rw [← hwf.descendants_eq] at hsublist
  refine ⟨ps, ⟨hsublist, hsublist.nodup (hwf.nodup_descendants node)⟩, fun p => hstops.mem_iff hwf,
    (render_iff hready).1, (render_iff hready).2, fun text w' hok v hv => ?_⟩
  have hagain := hready.render hok
  rw [← hv] at hagain
  obtain ⟨k', hstops'⟩ := hagain.stops
  exact ⟨hstops'.isBody hagain.wellFormed, render_iff hagain⟩

/-- A field and, last in the body, a group with another field: their values are found under `k/a` and `k/g/b`, and the
    body is rendered a second time as it was the first. -/
theorem render_body_with_group :
    let body : Element := .mk "writer" [("key", "k")] "" .none [.mk "item" [("name", "a")] "" .none [],
      .mk "items" [("name", "g")] "" .none [.mk "item" [("name", "b")] "" .none []]]
    let table : Table := ⟨[("k/a", 0), ("k/g/b", 1)], [], 0, true, 0, [["x", "y"]]⟩
    let w : Walk := begin ⟨⟨body, none, some table⟩, [], none, .memory, .zero, .stored [], .empty⟩
    let f : Frame := ⟨none, .main, true, [], [], none, none⟩
    let o : Options := .standard ⟨2000, 1, 1, 0, 0, 0, 0⟩
    IsBody w.space.tree 0 ∧ ∃ ps out w', ⟨"k/g", 3⟩ ∈ ps ∧ Encoded o f ps w out w' ∧ "xy" = Text.decodeUtf8 out.flatten
      ∧ w'.space.tree.children 0 ≠ w.space.tree.children 0
      ∧ ∃ out' v, Encoded o f ps w' out' v ∧ "xy" = Text.decodeUtf8 out'.flatten := by
  intro body table w f o
  have hwf : w.space.tree.WellFormed := (Tree.grafted_ofElement body).wellFormed
  have hinner : Stops w.space.tree "k/g" [3] [⟨"k/g", 3⟩] 1 := .field (by decide +kernel) (by decide +kernel) .nil
  have hstops : Stops w.space.tree "k" [1, 2] _ _ :=
    .field (by decide +kernel) (by decide +kernel) (.group (by decide +kernel) (by decide +kernel) hinner .nil)
  have hbody : IsBody w.space.tree 0 := hstops.isBody hwf
  have hrun : Action.succeeds (render o f 0 w) (fun text w' => text == "xy"
      && w'.space.tree.children 0 != w.space.tree.children 0
      && Action.succeeds (render o f 0 w') (fun text' _ => text' == "xy")) = true := by decide +kernel
  obtain ⟨text, w', hok, hrun⟩ := Action.succeeds_iff.mp hrun
  simp only [Bool.and_eq_true, beq_iff_eq, bne_iff_ne] at hrun
  obtain ⟨⟨rfl, hchildren⟩, hagain⟩ := hrun
  obtain ⟨text', v, hok', htext⟩ := Action.succeeds_iff.mp hagain
  obtain rfl := beq_iff_eq.mp htext
  obtain ⟨ps, -, hmem, hrender, -, hkept⟩ := render_body (o := o) (f := f) hwf hbody
  obtain ⟨out, henc, htext⟩ := (hrender _ _).mp hok
  obtain ⟨-, hrender', -⟩ := hkept _ _ hok w' rfl
  obtain ⟨out', henc', htext'⟩ := (hrender' _ _).mp hok'
  refine ⟨hbody, ps, out, w', (hmem _).mpr ⟨.inl (by decide +kernel), 2, by decide +kernel, ?_⟩, henc, htext, hchildren,
    out', v, henc', htext'⟩
  exact .group .body (by decide +kernel) (by decide +kernel)

end Stencil.Walk
