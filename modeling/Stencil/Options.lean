/-
  What a run is given besides layouts and records: values from outside, the directory from which
  relative paths are taken, and the time.
-/
import Stencil.Entries
import Stencil.FilePath
import Stencil.Time

set_option autoImplicit false

namespace Stencil

/-- The settings of a run. -/
structure Options where
  /-- Values from outside, under their names. -/
  externals : Entries String
  /-- The directory from which relative paths are taken where nothing else is said. -/
  baseDir : String
  /-- The time at which fields are written. -/
  now : Moment
  deriving Repr

namespace Options

/-- No values from outside, and the current directory, at some time. -/
def standard (now : Moment) : Options := ⟨[], ".", now⟩

/-- A value from outside; a missing one is empty. -/
def external (o : Options) (name : String) : String := (o.externals.get? name).getD ""

/-- The path that a document stored at `origin` means by `path`. -/
def resolve (o : Options) (path : String) (origin : Option String) : String :=
  FilePath.resolve o.baseDir path origin

end Options

end Stencil
