/-
  Counters that hand out consecutive integers.

  There is one counter without a name and any number of named ones.  Drawing from a counter gives its
  value and moves it to the next integer; a name that was never used starts at zero.  Counters hold
  signed integers of sixty-four bits: at the last one, drawing fails and nothing changes.
-/
import Stencil.Entries
import Stencil.Error

set_option autoImplicit false

namespace Stencil

/-- The value that a counter cannot pass. -/
def lastCount : Int := 9223372036854775807

/-- The counters of a run. -/
structure Counters where
  /-- The counter without a name. -/
  unnamed : Int
  /-- The named counters, in order of first use. -/
  named : Entries Int
  deriving DecidableEq, Repr

namespace Counters

/-- All counters at zero. -/
def zero : Counters := ⟨0, []⟩

/-- The next value of a counter. -/
def value (c : Counters) : Option String → Int
  | none => c.unnamed
  | some name => (c.named.get? name).getD 0

/-- Sets the next value of a counter. -/
def set (c : Counters) (name : Option String) (n : Int) : Counters :=
  match name with
  | none => { c with unnamed := n }
  | some name => { c with named := c.named.insert name n }

/-- Draws a value. -/
def draw (c : Counters) (name : Option String) : Except Error Int × Counters :=
  if c.value name < lastCount then (.ok (c.value name), c.set name (c.value name + 1))
  else (.error (.of .counterOverflow), c)

/-- Setting a counter changes that one only. -/
theorem value_set (c : Counters) (name other : Option String) (n : Int) :
    (c.set name n).value other = if name = other then n else c.value other := by
  cases name <;> cases other <;> simp [set, value, Entries.get?_insert]
  split <;> simp_all

/-- A value that is drawn is the counter's, and the counter moves on by one. -/
theorem draw_ok {c c' : Counters} {name : Option String} {n : Int}
    (h : c.draw name = (.ok n, c')) : n = c.value name ∧ c'.value name = n + 1 := by
  unfold draw at h
  split at h
  · injection h with h1 h2
    injection h1 with h1
    subst h1; subst h2
    simp [value_set]
  · injection h with h1 h2
    simp at h1

end Counters

end Stencil
