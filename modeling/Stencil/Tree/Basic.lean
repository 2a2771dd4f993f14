/-
  The tree of a run: every document that the run works on, as nodes in one store.

  A node is an element: its name, its attributes, its own text, its children and its parent.  Beside
  what its document declares, a node has *computed* values, which a run fills in: the text that was
  last written for it, how many bytes that took, which iteration of a loop it belongs to.

  Nodes live in numbered slots.  A slot that is given up goes onto a stack of free slots and is the
  next one to be used.  Numbers are identities as long as a node lives, and no longer.

    * Navigation (`children`, `parent?`, `nextSibling?`, `ancestors`, `descendants`, `rootOf`) and
      views (`attribute?`, `stringValue`, `describe`) are in this module.
    * `WellFormed` says what every operation keeps: parents and children agree, no chain of parents
      is circular, and free slots are unused.
    * Changes are in `Stencil.Tree.Edit`, copies and whole elements in `Stencil.Tree.Element`.

  Chains of parents and paths down the tree are followed for at most as many steps as there are slots.
  In a well-formed tree nothing is longer.
-/
import Stencil.Entries
import Stencil.Text.Blank

set_option autoImplicit false

namespace Stencil

/-- The number of a node's slot. -/
abbrev NodeId := Nat

/-- What a run knows of a node beyond its declaration. -/
structure Computed where
  /-- The text that was last written. -/
  result : Option String
  /-- The number of bytes that were last written. -/
  resultBytes : Option Int
  /-- The number of the iteration, from 0. -/
  seq : Option Nat
  /-- What a loop and its unrolled copies have in common. -/
  repeatId : Option Nat
  deriving DecidableEq, Repr

namespace Computed

/-- Nothing known yet. -/
def none : Computed := ⟨.none, .none, .none, .none⟩

/-- The values that are set, under the names of the attributes they appear as. -/
def entries (c : Computed) : Entries String :=
  (c.result.map fun s => ("result", s)).toList
    ++ (c.resultBytes.map fun n => ("result-bytes", toString n)).toList
    ++ (c.seq.map fun n => ("seq", toString n)).toList
    ++ (c.repeatId.map fun n => ("repeat-id", toString n)).toList

/-- The value that appears as an attribute. -/
def get? (c : Computed) (name : String) : Option String := c.entries.get? name

end Computed

/-- An element in the store. -/
structure Node where
  /-- The name, without a namespace. -/
  name : String
  /-- The declared attributes. -/
  attrs : Entries String
  /-- The text of the element itself, its children's apart. -/
  text : String
  /-- The children, in order. -/
  children : List NodeId
  /-- The parent; none for a root. -/
  parent : Option NodeId
  /-- What the run knows of the node. -/
  computed : Computed
  deriving DecidableEq, Repr

/-- The node in an unused slot. -/
def Node.unused : Node := ⟨"", [], "", [], none, .none⟩

instance : Inhabited Node := ⟨.unused⟩

/-- How an element appears in a description of its place: by its tag, and its `name` if it has one. -/
def describeStep (name : String) (attrs : Entries String) : String :=
  "/" ++ name ++
    (match attrs.get? "name" with
    | some n => "[@name='" ++ n ++ "']"
    | none => "")

/-- The store of nodes. -/
structure Tree where
  /-- The slots. -/
  nodes : Array Node
  /-- The slots that are free, the next one to be used first. -/
  free : List NodeId
  deriving Repr

namespace Tree

/-- The store without slots. -/
def empty : Tree := ⟨#[], []⟩

instance : Inhabited Tree := ⟨empty⟩

/-- The number of slots. -/
def capacity (t : Tree) : Nat := t.nodes.size

/-- The number of nodes that live. -/
def size (t : Tree) : Nat := t.nodes.size - t.free.length

/-- The node in a slot; an unused one beyond the last slot. -/
def node (t : Tree) (id : NodeId) : Node := t.nodes.getD id .unused

/-- Whether a slot holds a node. -/
def Live (t : Tree) (id : NodeId) : Prop := id < t.nodes.size ∧ id ∉ t.free

instance (t : Tree) (id : NodeId) : Decidable (t.Live id) := by unfold Live; infer_instance

/-! ## Navigation -/

/-- The name of a node. -/
def name (t : Tree) (id : NodeId) : String := (t.node id).name

/-- The own text of a node. -/
def text (t : Tree) (id : NodeId) : String := (t.node id).text

/-- The children of a node, in order. -/
def children (t : Tree) (id : NodeId) : List NodeId := (t.node id).children

/-- The parent of a node. -/
def parent? (t : Tree) (id : NodeId) : Option NodeId := (t.node id).parent

/-- The computed values of a node. -/
def computed (t : Tree) (id : NodeId) : Computed := (t.node id).computed

/-- The first child. -/
def firstChild? (t : Tree) (id : NodeId) : Option NodeId := (t.children id).head?

/-- Whether a node has children. -/
def hasChildren (t : Tree) (id : NodeId) : Bool := !(t.children id).isEmpty

/-- The first child of a name. -/
def child? (t : Tree) (id : NodeId) (name : String) : Option NodeId :=
  (t.children id).find? fun c => t.name c == name

/-- The parent of a node and the node's place among the parent's children. -/
def position? (t : Tree) (id : NodeId) : Option (NodeId × Nat) :=
  match t.parent? id with
  | none => none
  | some p => ((t.children p).findIdx? (· == id)).map fun i => (p, i)

/-- The next child of the same parent. -/
def nextSibling? (t : Tree) (id : NodeId) : Option NodeId :=
  match t.position? id with
  | some (p, i) => (t.children p)[i + 1]?
  | none => none

/-- The previous child of the same parent. -/
def previousSibling? (t : Tree) (id : NodeId) : Option NodeId :=
  match t.position? id with
  | some (p, i + 1) => (t.children p)[i]?
  | _ => none

/-- The children of the same parent behind a node, the nearest first. -/
def followingSiblings (t : Tree) (id : NodeId) : List NodeId :=
  match t.position? id with
  | some (p, i) => (t.children p).drop (i + 1)
  | none => []

/-- The children of the same parent before a node, the nearest first. -/
def precedingSiblings (t : Tree) (id : NodeId) : List NodeId :=
  match t.position? id with
  | some (p, i) => ((t.children p).take i).reverse
  | none => []

/-- The chain of parents of a node, the nearest first, in at most so many steps. -/
def ancestorsWithin (t : Tree) : Nat → NodeId → List NodeId
  | 0, _ => []
  | n + 1, id =>
    match t.parent? id with
    | some p => p :: ancestorsWithin t n p
    | none => []

/-- The chain of parents of a node, the nearest first. -/
def ancestors (t : Tree) (id : NodeId) : List NodeId := t.ancestorsWithin t.nodes.size id

/-- The root of the document a node belongs to. -/
def rootOf (t : Tree) (id : NodeId) : NodeId := (t.ancestors id).getLast?.getD id

/-- The nodes below a node in document order, down to a depth. -/
def descendantsWithin (t : Tree) : Nat → NodeId → List NodeId
  | 0, _ => []
  | n + 1, id => (t.children id).flatMap fun c => c :: descendantsWithin t n c

/-- The nodes below a node in document order. -/
def descendants (t : Tree) (id : NodeId) : List NodeId := t.descendantsWithin t.nodes.size id

/-! ## Views -/

/-- A declared attribute. -/
def attr? (t : Tree) (id : NodeId) (name : String) : Option String := (t.node id).attrs.get? name

/-- A computed value, or else a declared attribute. -/
def attribute? (t : Tree) (id : NodeId) (name : String) : Option String :=
  ((t.computed id).get? name).or (t.attr? id name)

/-- The names of the attributes: those of computed values, then the other declared ones. -/
def attributeNames (t : Tree) (id : NodeId) : List String :=
  let computed := (t.computed id).entries.keys
  computed ++ (t.node id).attrs.keys.filter fun k => !computed.contains k

/-- The own text and the texts below, in document order. -/
def stringValue (t : Tree) (id : NodeId) : String :=
  String.join (t.text id :: (t.descendants id).map t.text)

/-- A path of names extended by the `name` attribute of a node, if it has one that is not empty. -/
def keyPath (t : Tree) (key : String) (id : NodeId) : String :=
  let name := (t.attr? id "name").getD ""
  if name.isEmpty then key else if key.isEmpty then name else key ++ "/" ++ name


/-- The way from the root to a node. -/
def describe (t : Tree) (id : NodeId) : String :=
  String.join (((id :: t.ancestors id).reverse).map fun n => describeStep (t.name n) (t.node n).attrs)

/-! ## Well-formed trees -/

/-- Parents and children agree, no chain of parents is circular, free slots are linked to nothing and
    listed once.  `rank` bounds the chains of parents: it grows from child to parent. -/
structure WellFormed (t : Tree) : Prop where
  /-- A child of a live node is live and points back to it. -/
  parent_of_child : ∀ p, t.Live p → ∀ c ∈ t.children p, t.Live c ∧ t.parent? c = some p
  /-- A live node with a parent is a child of it, and the parent is live. -/
  child_of_parent : ∀ c, t.Live c → ∀ p, t.parent? c = some p → t.Live p ∧ c ∈ t.children p
  /-- A child is listed once. -/
  nodup_children : ∀ p, t.Live p → (t.children p).Nodup
  /-- Chains of parents end. -/
  acyclic : ∃ rank : NodeId → Nat, ∀ c, t.Live c → ∀ p, t.parent? c = some p → rank c < rank p
  /-- A free slot is listed once. -/
  nodup_free : t.free.Nodup
  /-- A free slot is a slot. -/
  free_lt : ∀ i ∈ t.free, i < t.nodes.size
  /-- A free slot has neither children nor a parent. -/
  free_bare : ∀ i ∈ t.free, t.children i = [] ∧ t.parent? i = none

theorem wellFormed_empty : WellFormed empty where
  parent_of_child := by intro p hp; exact absurd hp.1 (Nat.not_lt_zero p)
  child_of_parent := by intro c hc; exact absurd hc.1 (Nat.not_lt_zero c)
  nodup_children := by intro p hp; exact absurd hp.1 (Nat.not_lt_zero p)
  acyclic := ⟨fun _ => 0, by intro c hc; exact absurd hc.1 (Nat.not_lt_zero c)⟩
  nodup_free := List.nodup_nil
  free_lt := by intro i hi; simp [empty] at hi
  free_bare := by intro i hi; simp [empty] at hi

end Tree

/-! ## Tags -/

/-- The elements a layout is made of. -/
inductive Tag where
  /-- A field. -/
  | item
  /-- A group of fields. -/
  | items
  /-- A loop. -/
  | loop
  /-- Another document. -/
  | document
  /-- A change of the output. -/
  | writer
  /-- Nothing. -/
  | nop
  deriving DecidableEq, Repr

namespace Tag

/-- The tag of an element's name. -/
def ofName? : String → Option Tag
  | "item" => some item
  | "items" => some items
  | "repeat" => some loop
  | "import" => some document
  | "writer" => some writer
  | "nop" => some nop
  | _ => none

end Tag

end Stencil
