/-
  Documents inside documents.

  An `import` element stands for the content of another document, its *target*.  Targets are named by
  paths, relative ones from the directory of the document that names them.  A document is read once and
  kept in the `Library`; each import gets a copy of its own.

  The `map` elements of an import are its *rules*.  A rule selects nodes of the target by a path query
  and replaces what they hold by a text: one that is written out, a value from outside, or the value of
  a path query in a third document, which the import names.

  `Import.resolve` replaces all static imports of a document.  It first reads all documents that are
  needed, from the outside in, and then puts each into its place, the last one first: when an import is
  replaced, the document it names is complete.
-/
import Stencil.Action
import Stencil.Options
import Stencil.Query.Eval
import Stencil.Tree.Element

set_option autoImplicit false

namespace Stencil

/-- How documents are read. -/
abbrev Loader := String → Except Error Element

/-- The documents that have been read, each with its path. -/
structure Library where
  /-- The documents, in the order of reading. -/
  documents : List (String × Element)
  deriving Repr, Inhabited

namespace Library

/-- No documents. -/
def empty : Library := ⟨[]⟩

/-- The number of documents. -/
def size (l : Library) : Nat := l.documents.length

/-- The document that is kept under a path. -/
def find? (l : Library) (path : String) : Option Element :=
  (l.documents.find? fun d => FilePath.same d.1 path).map Prod.snd

/-- The document of a path, which is read unless it is kept. -/
def fetch (load : Loader) (path : String) : Action Library Element := fun l =>
  match l.find? path with
  | some e => .ok e l
  | none =>
    match load path with
    | .error err => .error err l
    | .ok e => .ok e ⟨l.documents ++ [(path, e)]⟩

end Library

namespace Import

/-- What imports work on. -/
structure Desk where
  /-- The documents of the run. -/
  tree : Tree
  /-- The documents that have been read. -/
  library : Library
  deriving Repr, Inhabited

/-- A document in the tree, and the path it came from. -/
structure Placed where
  /-- Its root. -/
  root : NodeId
  /-- Its path. -/
  path : Option String
  deriving DecidableEq, Repr

/-- Changes the tree. -/
def modifyTree (f : Tree → Tree) : Action Desk Unit := modify fun d => { d with tree := f d.tree }

/-- The document of a path. -/
def fetch (load : Loader) (path : String) : Action Desk Element :=
  .within (fun d => d.library) (fun library d => { d with library }) (Library.fetch load path)

/-! ## Targets -/

/-- The target that an import names. -/
def target (t : Tree) (node : NodeId) : Except Error String :=
  match t.attr? node "target", t.attr? node "xtarget" with
  | some path, _ => .ok path
  | none, some source => Query.evaluate t (.element node) source
  | none, none => .error (.atSite .importWithoutTarget (t.describe node))

/-- Puts a copy of the target of an import into the tree, as a root.  `origin` is the path of the
    document that the import stands in. -/
def place (o : Options) (load : Loader) (node : NodeId) (origin : Option String) :
    Action Desk Placed := do
  let name ← Action.ofExcept (target (← get).tree node)
  let path := o.resolve name origin
  let e ← fetch load path
  let d ← get
  let (root, tree) := d.tree.graft none e
  set { d with tree }
  return ⟨root, some path⟩

/-! ## Rules -/

/-- The text that a rule puts in.  `transform` is the document that the import names for it. -/
def replacement (o : Options) (load : Loader) (rule : NodeId) (transform origin : Option String) :
    Action Desk String := do
  let t := (← get).tree
  let text := t.stringValue rule
  match t.attr? rule "type" with
  | some "text" => return text
  | some "external" => return o.external text
  | _ =>
    match transform with
    | none => .failAt .ruleWithoutTransform (t.describe rule)
    | some name =>
      let e ← fetch load (o.resolve name origin)
      Action.ofExcept (Query.evaluate (Tree.ofElement e) (.document 0) text)

/-- Replaces what a node holds. -/
def replace (source text : String) (rule : NodeId) : Query.NodeRef → Action Desk Unit
  | .element id => modifyTree fun t => t.setValue id text
  | .attr id name => modifyTree fun t => t.setAttr id name text
  | .text id => modifyTree fun t => t.setText id text
  | .document _ => do .failAt (.ruleSelectsDocument source) ((← get).tree.describe rule)

/-- Replaces what nodes hold, one after another. -/
def replaceAll (source text : String) (rule : NodeId) : List Query.NodeRef → Action Desk Unit
  | [] => pure ()
  | n :: ns => do
    replace source text rule n
    replaceAll source text rule ns

/-- Applies a rule to the document with some root. -/
def applyRule (o : Options) (load : Loader) (root : NodeId) (transform origin : Option String)
    (rule : NodeId) : Action Desk Unit := do
  let t := (← get).tree
  match t.attr? rule "from" with
  | none => .failAt .ruleWithoutFrom (t.describe rule)
  | some source =>
    let text ← replacement o load rule transform origin
    let selected ← Action.ofExcept (Query.select (← get).tree (.document root) source)
    replaceAll source text rule selected

/-- Applies rules, one after another, those of other names than `map` apart. -/
def applyRules (o : Options) (load : Loader) (root : NodeId) (transform origin : Option String) :
    List NodeId → Action Desk Unit
  | [] => pure ()
  | rule :: rules => do
    if (← get).tree.name rule == "map" then applyRule o load root transform origin rule
    applyRules o load root transform origin rules

/-- Applies the rules of an import to the document with some root. -/
def edit (o : Options) (load : Loader) (node root : NodeId) (origin : Option String) :
    Action Desk Unit := do
  let t := (← get).tree
  applyRules o load root (t.attr? node "transform") origin (t.children node)

/-! ## Static imports -/

/-- A document whose imports are still to be read, with the paths of the documents around it. -/
structure Unread where
  /-- The document. -/
  document : Placed
  /-- The paths of the documents around it. -/
  around : List String
  deriving DecidableEq, Repr

/-- An import to be replaced by the document it names. -/
structure Splice where
  /-- The import. -/
  node : NodeId
  /-- The root of the document. -/
  root : NodeId
  /-- The path of the document that the import stands in. -/
  origin : Option String
  deriving DecidableEq, Repr

/-- The static imports of a document, in document order. -/
def statics (t : Tree) (root : NodeId) : List NodeId :=
  (root :: t.descendants root).filter fun n =>
    t.name n == "import" && t.attr? n "type" == some "xml"

/-- Reads the targets of imports in one document.  `chain` are the paths of that document and those
    around it; none of them may be a target. -/
def readTargets (o : Options) (load : Loader) (origin : Option String) (chain : List String) :
    List NodeId → Action Desk (List (Splice × Unread))
  | [] => pure []
  | node :: nodes => do
    let document ← place o load node origin
    match document.path with
    | some path =>
      if chain.any (FilePath.same · path) then
        .failAt (.circularImport path) ((← get).tree.describe node)
    | none => pure ()
    let more ← readTargets o load origin chain nodes
    return (⟨node, document.root, origin⟩, ⟨document, chain⟩) :: more

/-- Reads the targets of all imports, in at most so many rounds.  The document that was found last is
    looked through first.  Gives what is to be replaced, the last import first. -/
def readAll (o : Options) (load : Loader) :
    Nat → List Unread → List Splice → Action Desk (List Splice)
  | _, [], found => pure found
  | 0, _ :: _, _ => .fail .exhausted
  | n + 1, u :: us, found => do
    let chain := u.around ++ u.document.path.toList
    let nodes := statics (← get).tree u.document.root
    let targets ← readTargets o load u.document.path chain nodes
    readAll o load n ((targets.map Prod.snd).reverse ++ us)
      ((targets.map Prod.fst).reverse ++ found)

/-- Turns an import into a group that holds the content of a document. -/
def spliceInto (t : Tree) (node root : NodeId) : Tree :=
  let cleared := (t.children node).foldl Tree.release t
  let bare := (cleared.setText node "").retainAttrs node ["name"]
  let filled := (bare.children root).foldl (fun t c => t.appendChild node c) bare
  (filled.release root).rename node "items"

/-- Applies the rules of imports and replaces them. -/
def spliceAll (o : Options) (load : Loader) : List Splice → Action Desk Unit
  | [] => pure ()
  | s :: ss => do
    edit o load s.node s.root s.origin
    modifyTree fun t => spliceInto t s.node s.root
    spliceAll o load ss

/-- A number of rounds that no run uses up. -/
def rounds : Nat := 1099511627776

/-- Replaces all static imports of a document. -/
def resolve (o : Options) (load : Loader) (document : Placed) : Action Desk Unit := do
  spliceAll o load (← readAll o load rounds [⟨document, []⟩] [])

end Import

end Stencil
