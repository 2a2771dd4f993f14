/-
  Tables of records, read one row at a time.

  A table has columns, rows and a reader.  The reader stands between rows: `Table.read` makes the next
  unread row the current record.  Nested loops need the records of outer loops back when they end, so
  the current record is the top of a stack: `push` opens a level that starts out empty, `pop` closes
  one, and what was current before is current again.

    * `field` looks a column up in the current record; a missing column, a short row and an empty
      stack all read as the empty text.
    * `unread` are the rows not read yet; reading takes the first of them (`unread_read`), and neither
      `push` nor `pop` touches them.
-/
import Stencil.Entries

set_option autoImplicit false

namespace Stencil

/-- A row of a table and the line of the source it ends on. -/
structure Row where
  /-- The values, in the order of the header. -/
  fields : List String
  /-- The line of the source, counted from one. -/
  line : Nat
  deriving DecidableEq, Repr

/-- The identity of a row: its line as a signed integer of sixty-four bits. -/
def Row.identity (r : Row) : Int := (r.line : Int).bmod 18446744073709551616

/-- A line that fits is its row's identity. -/
theorem Row.identity_eq {r : Row} (h : r.line < 9223372036854775808) : r.identity = r.line := by
  unfold Row.identity
  rw [Int.bmod_eq_of_le] <;> omega

/-- A table of records with its reader. -/
structure Table where
  /-- The place of each column's values in a row. -/
  columns : Entries Nat
  /-- All rows, in order. -/
  rows : List Row
  /-- How many rows have been read. -/
  next : Nat
  /-- Whether the last reading found a row. -/
  valid : Bool
  /-- The identity of the last row that was read. -/
  lastRead : Int
  /-- The current record on top of the saved ones. -/
  stack : List (List String)
  deriving DecidableEq, Repr

namespace Table

/-- The table with nothing in it, not even a level for a current record. -/
def empty : Table := ⟨[], [], 0, false, 0, []⟩

/-- Names the places of a header.  A name that stands twice means its last place. -/
def columnsOf (header : List String) : Entries Nat := Entries.ofList header.zipIdx

/-- A table with a header and no rows. -/
def ofHeader (header : List String) : Table := { empty with columns := columnsOf header, stack := [[]] }

/-- Appends a row. -/
def addRow (t : Table) (fields : List String) (line : Nat) : Table :=
  { t with rows := t.rows ++ [⟨fields, line⟩] }

/-- The line a row gets when none is given: the one after the last row's, or the second. -/
def nextLine (t : Table) : Nat :=
  match t.rows.getLast? with
  | some r => r.line + 1
  | none => 2

/-- The number of rows, read or not. -/
def size (t : Table) : Nat := t.rows.length

/-- The rows that have not been read. -/
def unread (t : Table) : List Row := t.rows.drop t.next

/-- The current record. -/
def current (t : Table) : List String := t.stack.headD []

/-- The value of a column in the current record. -/
def field (t : Table) (column : String) : String :=
  match t.columns.get? column with
  | some place => t.current.getD place ""
  | none => ""

/-- Makes the next unread row the current record, if there is one; says whether there was. -/
def read (t : Table) : Bool × Table :=
  match t.rows[t.next]? with
  | some row =>
    (true, { t with
      valid := true
      lastRead := row.identity
      next := t.next + 1
      stack := row.fields :: t.stack.tail })
  | none => (false, { t with valid := false })

/-- Opens a level whose current record is empty. -/
def push (t : Table) : Table := { t with stack := [] :: t.stack }

/-- Closes the innermost level. -/
def pop (t : Table) : Table := { t with stack := t.stack.tail }

/-! ## Laws -/

@[simp] theorem unread_push (t : Table) : t.push.unread = t.unread := rfl
@[simp] theorem unread_pop (t : Table) : t.pop.unread = t.unread := rfl
@[simp] theorem pop_push (t : Table) : t.push.pop = t := rfl

/-- Reading takes the first unread row. -/
theorem unread_read (t : Table) : t.read.2.unread = t.unread.tail := by
  unfold read unread
  split
  · simp
  · rename_i h
    have : t.rows.length ≤ t.next := by simpa using h
    simp [List.drop_eq_nil_of_le this]

/-- Reading succeeds exactly when a row is unread. -/
theorem read_fst (t : Table) : t.read.1 = !t.unread.isEmpty := by
  unfold read unread
  split
  · rename_i r h
    have hlt : t.next < t.rows.length := by
      rcases Nat.lt_or_ge t.next t.rows.length with h' | h'
      · exact h'
      · rw [List.getElem?_eq_none h'] at h; simp at h
    rw [List.drop_eq_getElem_cons hlt]
    rfl
  · rename_i h
    have : t.rows.length ≤ t.next := by simpa using h
    simp [List.drop_eq_nil_of_le this]

/-- The row that is read becomes the current record. -/
theorem current_read (t : Table) :
    t.read.2.current = (t.unread.head?.map Row.fields).getD t.current := by
  unfold read unread current
  split
  · rename_i r h
    have hlt : t.next < t.rows.length := by
      rcases Nat.lt_or_ge t.next t.rows.length with h' | h'
      · exact h'
      · rw [List.getElem?_eq_none h'] at h; simp at h
    rw [List.drop_eq_getElem_cons hlt]
    rw [List.getElem?_eq_getElem hlt] at h
    simp at h
    simp [h]
  · rename_i h
    have : t.rows.length ≤ t.next := by simpa using h
    simp [List.drop_eq_nil_of_le this]

/-- A push, any number of readings on top of it and a pop give the old record back. -/
theorem stack_pop_read_push (t : Table) : t.push.read.2.pop.stack = t.stack := by
  unfold read push pop
  split <;> simp

end Table

end Stencil
