/-
  What the fields of a run work on: the tree, the counters, and the character maps.
-/
import Stencil.CharMap.Collection
import Stencil.Counter
import Stencil.Tree.Edit

set_option autoImplicit false

namespace Stencil

instance : Inhabited Counters := ⟨.zero⟩

/-- What the fields of a run work on. -/
structure Workspace where
  /-- The documents. -/
  tree : Tree
  /-- The counters. -/
  counters : Counters
  /-- Whether a value has been drawn from a counter. -/
  drawn : Bool
  /-- The character maps. -/
  maps : CharMaps
  deriving Repr, Inhabited

namespace Workspace

/-- Changes the tree. -/
def modifyTree (f : Tree → Tree) : Action Workspace Unit :=
  modify fun w => { w with tree := f w.tree }

/-- Draws a value from a counter. -/
def draw (name : Option String) : Action Workspace Int := fun w =>
  match w.counters.draw name with
  | (.ok n, counters) => .ok n { w with counters, drawn := true }
  | (.error e, counters) => .error e { w with counters, drawn := true }

/-- Replaces a text with the help of a character map. -/
def transform (o : Options) (read : FileReader) (name input : String) :
    Action Workspace String :=
  .within (fun w => w.maps) (fun maps w => { w with maps }) (CharMaps.transform o read name input)

end Workspace

end Stencil
