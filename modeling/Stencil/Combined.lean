/-
  Secondary documents and their tables, visited in order.

  A run may have, beside its main layout, a list of further documents, each possibly with a table of
  its own.  A cursor moves over the list, forward only: it starts before the first entry, `next` takes
  it one entry further, and after the last entry it stays behind it.  Loops over documents move the
  cursor; loops over records, and items that take their values from "the current document", use the
  entry it stands on.
-/
import Stencil.Table

set_option autoImplicit false

namespace Stencil

/-- A document of the list: where its root stands, where it came from, and its records. -/
structure CombinedEntry where
  /-- The root of the document in the tree of the run. -/
  root : Nat
  /-- The path of the document. -/
  path : Option String
  /-- The records of the document. -/
  table : Option Table
  deriving Repr

/-- The list of secondary documents with its cursor. -/
structure Combined where
  /-- The documents, in order. -/
  entries : List CombinedEntry
  /-- The cursor; none before the first entry. -/
  cursor : Option Nat
  deriving Repr

namespace Combined

/-- A list whose cursor stands before the first entry. -/
def ofList (entries : List CombinedEntry) : Combined := ⟨entries, none⟩

/-- The number of documents. -/
def size (c : Combined) : Nat := c.entries.length

/-- The place of the entry that the cursor stands on. -/
def currentIndex (c : Combined) : Option Nat := c.cursor.filter (· < c.size)

/-- The entry that the cursor stands on. -/
def current? (c : Combined) : Option CombinedEntry := c.currentIndex.bind (c.entries[·]?)

/-- Moves the cursor one entry on, unless it is behind the last one. -/
def advance (c : Combined) : Combined :=
  match c.cursor with
  | none => if c.size = 0 then c else { c with cursor := some 0 }
  | some i => if i < c.size then { c with cursor := some (i + 1) } else c

/-- Moves the cursor on and says whether it stands on an entry. -/
def next (c : Combined) : Bool × Combined := (c.advance.currentIndex.isSome, c.advance)

/-- The table of an entry. -/
def tableAt? (c : Combined) (i : Nat) : Option Table := c.entries[i]?.bind CombinedEntry.table

/-- Replaces the table of an entry. -/
def setTable (c : Combined) (i : Nat) (t : Table) : Combined :=
  { c with entries := c.entries.modify i fun e => { e with table := some t } }

/-- Reads the next row of an entry's table; nothing if there is no table. -/
def readAt (c : Combined) (i : Nat) : Option Bool × Combined :=
  match c.tableAt? i with
  | some t => (some t.read.1, c.setTable i t.read.2)
  | none => (none, c)

/-- The value of a column in the current document's current record; nothing if the cursor stands on
    no document, the empty text if the document has no records. -/
def field? (c : Combined) (column : String) : Option String :=
  c.current?.map fun e => (e.table.map (·.field column)).getD ""

/-- The cursor never moves back, and at most to just behind the last entry. -/
theorem cursor_advance (c : Combined) :
    c.advance.cursor = c.cursor ∨ c.advance.cursor = some ((c.cursor.map (· + 1)).getD 0) := by
  unfold advance
  split <;> rename_i h <;> split <;> simp [h]

end Combined

end Stencil
