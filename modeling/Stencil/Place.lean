/-
  Places in the file system.

  A place is reached from the current directory or from the root, by going up and then along names.
  Two paths lead to one place if no more than that can be said of them: links are not followed.
-/
import Stencil.FilePath

set_option autoImplicit false

namespace Stencil

/-- A place in the file system: where the way to it starts, and the names along the way. -/
structure Place where
  /-- Whether the way starts at the root; else it starts at the current directory. -/
  rooted : Bool
  /-- How many directories above the current one the way starts. -/
  above : Nat
  /-- The names along the way, last first. -/
  names : List String
  deriving DecidableEq, Repr

namespace Place

/-- The place where a path starts. -/
def start (path : String) : Place := ⟨FilePath.isAbsolute path, 0, []⟩

/-- The directory that holds a place; the root holds itself. -/
def up (p : Place) : Place :=
  match p.names with
  | _ :: ns => { p with names := ns }
  | [] => if p.rooted then p else { p with above := p.above + 1 }

/-- The place of a name in a directory. -/
def child (p : Place) (name : String) : Place := { p with names := name :: p.names }

/-- The place as a path. -/
def toPath (p : Place) : String :=
  (if p.rooted then "/" else "")
    ++ "/".intercalate (List.replicate p.above ".." ++ p.names.reverse)

end Place

end Stencil
